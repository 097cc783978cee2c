import SnitchOs.Hitch.Packed

/-!
# The manifest note

`encode_manifest` lays a program's interface into the fixed bytes of its ELF note; `decode_manifest` reads it off a
cursor. The two are written apart and share only the tags. Each `put_*` is a `Serial.Puts` whose bytes the reader of
the same part takes back, and the length in front is what the reader consumed.
-/

namespace SnitchOs.Hitch

open LittleEndian Serial List Option Cursor Cursor

/-- A schema of static data, of the shape of a `TypeSchema`. -/
inductive ConstSchema
  | bool
  | i8
  | i16
  | i32
  | i64
  | u8
  | u16
  | u32
  | u64
  | f32
  | f64
  | str
  | bytes
  | seq (elem : ConstSchema)
  | product (typeName : String) (fields : List (Option String × ConstSchema))
  | sum (typeName : String) (variants : List (String × ConstSchema))

namespace ConstSchema

mutual

def toTypeSchema : ConstSchema → TypeSchema
  | .bool => .bool
  | .i8 => .i8
  | .i16 => .i16
  | .i32 => .i32
  | .i64 => .i64
  | .u8 => .u8
  | .u16 => .u16
  | .u32 => .u32
  | .u64 => .u64
  | .f32 => .f32
  | .f64 => .f64
  | .str => .str
  | .bytes => .bytes
  | .seq elem => .seq elem.toTypeSchema
  | .product typeName fields => .product typeName (fieldsToTypeSchema fields)
  | .sum typeName variants => .sum typeName (variantsToTypeSchema variants)

def fieldsToTypeSchema : List (Option String × ConstSchema) → List (Option String × TypeSchema)
  | [] => []
  | (name, schema) :: fields => (name, schema.toTypeSchema) :: fieldsToTypeSchema fields

def variantsToTypeSchema : List (String × ConstSchema) → List (String × TypeSchema)
  | [] => []
  | (name, schema) :: variants => (name, schema.toTypeSchema) :: variantsToTypeSchema variants

end

end ConstSchema

structure ConstSlot where
  name : String
  object : UInt8
  rights : UInt32

structure ConstManifest where
  input : Option ConstSchema
  output : Option ConstSchema
  needs : List ConstSlot

structure Slot where
  name : String
  object : UInt8
  rights : UInt32

structure Manifest where
  input : Option TypeSchema
  output : Option TypeSchema
  needs : List Slot

def ConstSlot.toSlot (slot : ConstSlot) : Slot := ⟨slot.name, slot.object, slot.rights⟩

def ConstManifest.toManifest (m : ConstManifest) : Manifest :=
  ⟨m.input.map ConstSchema.toTypeSchema, m.output.map ConstSchema.toTypeSchema, m.needs.map ConstSlot.toSlot⟩

def manifestBytes : Nat := 1024

def manifestVersion : UInt8 := 2

/-! ### Writing

Each function gets the position to write at and gives back the one behind what it wrote. An index past the buffer
is a compile error, here no result.
-/

abbrev Put := StateT (List UInt8) Option Nat

def putTag (tag : UInt8) (pos : Nat) : Put := fun buf =>
  if pos < buf.length then some (pos + 1, buf.set pos tag) else none

def putBytes (bytes : List UInt8) (pos : Nat) : Put := bytes.foldlM (fun pos b => putTag b pos) pos

def putU32 (n pos : Nat) : Put := putBytes (toBytes 4 n) pos

def putStr (s : String) (pos : Nat) : Put := do
  let pos ← putU32 s.utf8ByteSize pos
  putBytes s.toUTF8.data.toList pos

def putOptStr (name : Option String) (pos : Nat) : Put :=
  match name with
  | some s => do
    let pos ← putTag 1 pos
    putStr s pos
  | none => putTag 0 pos

theorem ConstSchema.length_fieldsToTypeSchema (fields : List (Option String × ConstSchema)) :
    (fieldsToTypeSchema fields).length = fields.length := by
  induction fields with
  | nil => rfl
  | cons field fields ih => rw [fieldsToTypeSchema, length_cons, length_cons, ih]

theorem ConstSchema.length_variantsToTypeSchema (variants : List (String × ConstSchema)) :
    (variantsToTypeSchema variants).length = variants.length := by
  induction variants with
  | nil => rfl
  | cons variant variants ih => rw [variantsToTypeSchema, length_cons, length_cons, ih]

mutual

def putSchema : ConstSchema → Nat → Put
  | .bool, pos => putTag 0 pos
  | .i8, pos => putTag 1 pos
  | .i16, pos => putTag 2 pos
  | .i32, pos => putTag 3 pos
  | .i64, pos => putTag 4 pos
  | .u8, pos => putTag 5 pos
  | .u16, pos => putTag 6 pos
  | .u32, pos => putTag 7 pos
  | .u64, pos => putTag 8 pos
  | .f32, pos => putTag 9 pos
  | .f64, pos => putTag 10 pos
  | .str, pos => putTag 11 pos
  | .bytes, pos => putTag 12 pos
  | .seq inner, pos => do
    let pos ← putTag 13 pos
    putSchema inner pos
  | .product typeName fields, pos => do
    let pos ← putTag 14 pos
    let pos ← putStr typeName pos
    let pos ← putU32 fields.length pos
    putFields fields pos
  | .sum typeName variants, pos => do
    let pos ← putTag 15 pos
    let pos ← putStr typeName pos
    let pos ← putU32 variants.length pos
    putVariants variants pos

def putFields : List (Option String × ConstSchema) → Nat → Put
  | [], pos => pure pos
  | (name, schema) :: fields, pos => do
    let pos ← putOptStr name pos
    let pos ← putSchema schema pos
    putFields fields pos

def putVariants : List (String × ConstSchema) → Nat → Put
  | [], pos => pure pos
  | (name, schema) :: variants, pos => do
    let pos ← putStr name pos
    let pos ← putSchema schema pos
    putVariants variants pos

end

def putOptSchema (schema : Option ConstSchema) (pos : Nat) : Put :=
  match schema with
  | some s => do
    let pos ← putTag 1 pos
    putSchema s pos
  | none => putTag 0 pos

def putSlot (slot : ConstSlot) (pos : Nat) : Put := do
  let pos ← putStr slot.name pos
  let pos ← putTag slot.object pos
  putU32 slot.rights.toNat pos

def putSlots : List ConstSlot → Nat → Put
  | [], pos => pure pos
  | slot :: needs, pos => do
    let pos ← putSlot slot pos
    putSlots needs pos

/-- All behind the length. -/
def putPayload (m : ConstManifest) (pos : Nat) : Put := do
  let pos ← putTag manifestVersion pos
  let pos ← putOptSchema m.input pos
  let pos ← putOptSchema m.output pos
  let pos ← putU32 m.needs.length pos
  putSlots m.needs pos

def encodeManifest (m : ConstManifest) : Option (List UInt8) := do
  let (pos, buf) ← (putPayload m 4).run (List.replicate manifestBytes 0)
  let (_, buf) ← (putU32 (pos - 4) 0).run buf
  some buf

/-! ### Reading -/

/-- `cur.array::<1>()?[0]` -/
def Cursor.byte : Cursor UInt8 := (fun raw => raw.headD 0) <$> Cursor.take 1

def readManifestStr : Cursor String := readStr

def readManifestOptStr : Cursor (Option String) := do
  match ← byte with
  | 0 => pure none
  | 1 => some <$> readManifestStr
  | _ => throw .schemaMismatch

/-- Every call takes a byte before it calls again, so with as many calls allowed as there are bytes the last one
finds the input empty. -/
def readManifestSchema : Nat → Cursor TypeSchema
  | 0 => throw .unexpectedEnd
  | calls + 1 => do
    match ← byte with
    | 0 => pure .bool
    | 1 => pure .i8
    | 2 => pure .i16
    | 3 => pure .i32
    | 4 => pure .i64
    | 5 => pure .u8
    | 6 => pure .u16
    | 7 => pure .u32
    | 8 => pure .u64
    | 9 => pure .f32
    | 10 => pure .f64
    | 11 => pure .str
    | 12 => pure .bytes
    | 13 => .seq <$> readManifestSchema calls
    | 14 => do
      let typeName ← readManifestStr
      let count ← u32
      .product typeName <$> times (do
        let name ← readManifestOptStr
        (name, ·) <$> readManifestSchema calls) count
    | 15 => do
      let typeName ← readManifestStr
      let count ← u32
      .sum typeName <$> times (do
        let name ← readManifestStr
        (name, ·) <$> readManifestSchema calls) count
    | _ => throw .schemaMismatch

def readManifestOptSchema (calls : Nat) : Cursor (Option TypeSchema) := do
  match ← byte with
  | 0 => pure none
  | 1 => some <$> readManifestSchema calls
  | _ => throw .schemaMismatch

def readManifestSlot : Cursor Slot := do
  let name ← readManifestStr
  let object ← byte
  (fun rights => ⟨name, object, UInt32.ofNat rights⟩) <$> u32

/-- All behind the version. -/
def readManifestBody (calls : Nat) : Cursor Manifest := do
  let input ← readManifestOptSchema calls
  let output ← readManifestOptSchema calls
  let needsCount ← u32
  (fun needs => ⟨input, output, needs⟩) <$> times readManifestSlot needsCount

def decodeManifest (bytes : List UInt8) : Except Error Manifest := do
  let (payloadLen, cur) ← u32.run bytes
  let (version, cur) ← byte.run cur
  if version ≠ manifestVersion then throw .schemaMismatch
  let (manifest, cur) ← (readManifestBody bytes.length).run cur
  -- The length in front must be what the body consumed.
  if bytes.length - cur.length - 4 ≠ payloadLen then throw .schemaMismatch
  pure manifest

/-! ### The parts -/

theorem reads_byte (b : UInt8) : Reads byte [b] b := by
  have htake : Reads (take 1) [b] [b] := reads_take rfl
  exact htake.map fun raw => raw.headD 0

variable {n : Nat} {s : TypeSchema} {α : Type} {r : Cursor α}
  {fields : List (α × TypeSchema)}

theorem reads_u32 (h : n < 2 ^ 32) : Reads u32 (toBytes 4 n) n := by
  have hread := (reads_take (length_toBytes 4 n)).map ofBytes
  rwa [ofBytes_toBytes, Nat.mod_eq_of_lt (show n < 256 ^ 4 from h)] at hread

theorem reads_str {s : String} (h : s.utf8ByteSize < 2 ^ 32) :
    Reads readManifestStr (toBytes 4 s.utf8ByteSize ++ s.toUTF8.data.toList) s := by
  have hbytes : Reads readBytes (toBytes 4 s.utf8ByteSize ++ s.toUTF8.data.toList) s.toUTF8.data.toList :=
    (reads_u32 h).bind (reads_take rfl)
  have hof : Reads (ofOption Error.schemaMismatch (fromUtf8 s.toUTF8.data.toList)) ([] : List UInt8) s := by
    rw [(fromUtf8_eq_some_iff _ s).mpr rfl]
    exact Reads.pure s
  have hread := hbytes.bind (f := fun bytes => ofOption Error.schemaMismatch (fromUtf8 bytes)) hof
  rwa [append_nil] at hread

theorem puts_tag (n : Nat) (tag : UInt8) : Puts n (putTag tag) (· = [tag]) := by
  intro buf pos pos' buf' hbuf hpos hrun
  rw [StateT.run, putTag] at hrun
  split at hrun
  · cases hrun
    refine ⟨[tag], rfl, rfl, by omega, ?_⟩
    rw [set_eq_take_append_cons_drop, if_pos ‹_›]
    simp
  · cases hrun

theorem puts_bytes (n : Nat) (bytes : List UInt8) : Puts n (putBytes bytes) (· = bytes) := by
  induction bytes with
  | nil => exact Puts.pure n
  | cons b bytes ih =>
    refine ((puts_tag n b).bind ih).mono fun out _ h => ?_
    obtain ⟨_, _, rfl, rfl, rfl⟩ := h
    rfl

theorem puts_u32 (size n : Nat) : Puts size (putU32 n) (· = toBytes 4 n) := puts_bytes size _

theorem puts_str (hn : n < 2 ^ 32) (s : String) : Puts n (putStr s) fun out => Reads readManifestStr out s := by
  refine ((puts_u32 n s.utf8ByteSize).bind (puts_bytes n s.toUTF8.data.toList)).mono fun out hout h => ?_
  obtain ⟨_, _, rfl, rfl, rfl⟩ := h
  rw [length_append] at hout
  refine reads_str (Nat.lt_of_le_of_lt ?_ hn)
  exact Nat.le_trans (Nat.le_add_left s.utf8ByteSize _) hout

theorem puts_optStr (hn : n < 2 ^ 32) (name : Option String) :
    Puts n (putOptStr name) fun out => Reads readManifestOptStr out name := by
  cases name with
  | none =>
    refine (puts_tag n 0).mono fun out _ h => ?_
    subst h
    exact (reads_byte 0).bind (Reads.pure none)
  | some s =>
    refine ((puts_tag n 1).bind (puts_str hn s)).mono fun out _ h => ?_
    obtain ⟨_, text, rfl, rfl, htext⟩ := h
    exact (reads_byte 1).bind (htext.map some)

/-! ### Schemas -/

/-- Read back by as many calls as there are bytes, or more. -/
def SchemaBytes (s : TypeSchema) (out : List UInt8) : Prop :=
  out ≠ [] ∧ ∀ calls, out.length ≤ calls → Reads (readManifestSchema calls) out s

def NamedBytes {α : Type} (r : Cursor α) (field : α × TypeSchema) (out : List UInt8) : Prop :=
  ∃ a b, out = a ++ b ∧ Reads r a field.1 ∧ SchemaBytes field.2 b

theorem schemaBytes_tag {rest : List UInt8}
    (h : ∀ calls, rest.length ≤ calls → Reads (readManifestSchema (calls + 1)) ([tag] ++ rest) s) :
    SchemaBytes s ([tag] ++ rest) := by
  refine ⟨cons_ne_nil _ _, fun calls hcalls => ?_⟩
  rw [length_append, length_singleton] at hcalls
  obtain ⟨calls, rfl⟩ : ∃ c, calls = c + 1 := ⟨calls - 1, by omega⟩
  exact h calls (by omega)

theorem puts_leaf (h : ∀ calls, Reads (readManifestSchema (calls + 1)) [tag] s) : Puts n (putTag tag) (SchemaBytes s) := by
  have htag : SchemaBytes s ([tag] ++ []) := schemaBytes_tag fun calls _ => h calls
  exact (puts_tag n tag).mono fun _ _ hout => hout ▸ htag

theorem reads_named (h : List.Forall₂ (NamedBytes r) fields outs) :
    fields.length ≤ outs.flatten.length ∧ ∀ calls, outs.flatten.length ≤ calls →
      Reads (times (do let name ← r; (name, ·) <$> readManifestSchema calls) fields.length) outs.flatten fields := by
  induction h with
  | nil => exact ⟨Nat.zero_le _, fun _ _ => Reads.pure []⟩
  | cons hfield _ ih =>
    obtain ⟨a, b, rfl, ha, hne, hb⟩ := hfield
    have hpos := length_pos_of_ne_nil hne
    obtain ⟨hcount, hrest⟩ := ih
    rw [length_cons, flatten_cons, length_append, length_append]
    refine ⟨by omega, fun calls hcalls => ?_⟩
    exact (ha.bind ((hb calls (by omega)).map _)).bind ((hrest calls (by omega)).map _)

theorem reads_members (h : List.Forall₂ (NamedBytes r) fields outs) (hname : Reads readManifestStr name typeName)
    (hlen : outs.flatten.length < 2 ^ 32) (c : String → List (α × TypeSchema) → TypeSchema)
    (hcalls : (name ++ (toBytes 4 fields.length ++ outs.flatten)).length ≤ calls) : Reads (do
      let typeName ← readManifestStr let count ← u32
      c typeName <$> times (do let name ← r; (name, ·) <$> readManifestSchema calls) count)
      (name ++ (toBytes 4 fields.length ++ outs.flatten)) (c typeName fields) := by
  obtain ⟨hcount, hread⟩ := reads_named h
  rw [length_append, length_append] at hcalls
  have hmembers := (hread calls (by omega)).map (c typeName)
  exact hname.bind ((reads_u32 (Nat.lt_of_le_of_lt hcount hlen)).bind hmembers)

section Schemas

variable (hn : n < 2 ^ 32)
include hn

mutual

theorem puts_schema : ∀ s : ConstSchema, Puts n (putSchema s) (SchemaBytes s.toTypeSchema)
  | .bool => puts_leaf fun _ => (reads_byte 0).bind (Reads.pure _)
  | .i8 => puts_leaf fun _ => (reads_byte 1).bind (Reads.pure _)
  | .i16 => puts_leaf fun _ => (reads_byte 2).bind (Reads.pure _)
  | .i32 => puts_leaf fun _ => (reads_byte 3).bind (Reads.pure _)
  | .i64 => puts_leaf fun _ => (reads_byte 4).bind (Reads.pure _)
  | .u8 => puts_leaf fun _ => (reads_byte 5).bind (Reads.pure _)
  | .u16 => puts_leaf fun _ => (reads_byte 6).bind (Reads.pure _)
  | .u32 => puts_leaf fun _ => (reads_byte 7).bind (Reads.pure _)
  | .u64 => puts_leaf fun _ => (reads_byte 8).bind (Reads.pure _)
  | .f32 => puts_leaf fun _ => (reads_byte 9).bind (Reads.pure _)
  | .f64 => puts_leaf fun _ => (reads_byte 10).bind (Reads.pure _)
  | .str => puts_leaf fun _ => (reads_byte 11).bind (Reads.pure _)
  | .bytes => puts_leaf fun _ => (reads_byte 12).bind (Reads.pure _)
  | .seq elem => by
    refine ((puts_tag n 13).bind (puts_schema elem)).mono fun out _ h => ?_
    obtain ⟨_, inner, rfl, rfl, -, hinner⟩ := h
    exact schemaBytes_tag fun calls hcalls => (reads_byte 13).bind ((hinner calls hcalls).map TypeSchema.seq)
  | .product typeName fields => by
    have hfields := (puts_u32 n fields.length).bind (puts_fields fields)
    refine ((puts_tag n 14).bind ((puts_str hn typeName).bind hfields)).mono fun out hout h => ?_
    obtain ⟨_, _, rfl, rfl, name, _, rfl, hname, _, _, rfl, rfl, outs, rfl, houts⟩ := h
    simp only [length_append] at hout
    rw [← ConstSchema.length_fieldsToTypeSchema]
    exact schemaBytes_tag fun calls hcalls =>
      (reads_byte 14).bind (reads_members houts hname (by omega) .product hcalls)
  | .sum typeName variants => by
    have hvariants := (puts_u32 n variants.length).bind (puts_variants variants)
    refine ((puts_tag n 15).bind ((puts_str hn typeName).bind hvariants)).mono fun out hout h => ?_
    obtain ⟨_, _, rfl, rfl, name, _, rfl, hname, _, _, rfl, rfl, outs, rfl, houts⟩ := h
    simp only [length_append] at hout
    rw [← ConstSchema.length_variantsToTypeSchema]
    exact schemaBytes_tag fun calls hcalls =>
      (reads_byte 15).bind (reads_members houts hname (by omega) .sum hcalls)

theorem puts_fields : ∀ fields : List (Option String × ConstSchema), Puts n (putFields fields) fun out =>
    ∃ outs, out = outs.flatten ∧ List.Forall₂ (NamedBytes readManifestOptStr) (ConstSchema.fieldsToTypeSchema fields) outs
  | [] => (Puts.pure n).mono fun _ _ h => ⟨[], h, .nil⟩
  | (name, schema) :: fields => by
    have hrest := (puts_schema schema).bind (puts_fields fields)
    refine ((puts_optStr hn name).bind hrest).mono fun out _ h => ?_
    obtain ⟨a, _, rfl, ha, b, _, rfl, hb, outs, rfl, houts⟩ := h
    exact ⟨(a ++ b) :: outs, by simp, .cons ⟨a, b, rfl, ha, hb⟩ houts⟩

theorem puts_variants : ∀ variants : List (String × ConstSchema), Puts n (putVariants variants) fun out =>
    ∃ outs, out = outs.flatten ∧ List.Forall₂ (NamedBytes readManifestStr) (ConstSchema.variantsToTypeSchema variants) outs
  | [] => (Puts.pure n).mono fun _ _ h => ⟨[], h, .nil⟩
  | (name, schema) :: variants => by
    have hrest := (puts_schema schema).bind (puts_variants variants)
    refine ((puts_str hn name).bind hrest).mono fun out _ h => ?_
    obtain ⟨a, _, rfl, ha, b, _, rfl, hb, outs, rfl, houts⟩ := h
    exact ⟨(a ++ b) :: outs, by simp, .cons ⟨a, b, rfl, ha, hb⟩ houts⟩

end

theorem puts_optSchema (schema : Option ConstSchema) : Puts n (putOptSchema schema) fun out =>
    ∀ calls, out.length ≤ calls → Reads (readManifestOptSchema calls) out (schema.map ConstSchema.toTypeSchema) := by
  cases schema with
  | none =>
    refine (puts_tag n 0).mono fun out _ h => ?_
    subst h
    exact fun _ _ => (reads_byte 0).bind (Reads.pure none)
  | some s =>
    refine ((puts_tag n 1).bind (puts_schema hn s)).mono fun out _ h => ?_
    obtain ⟨_, inner, rfl, rfl, -, hinner⟩ := h
    intro calls hcalls
    rw [length_append] at hcalls
    exact (reads_byte 1).bind ((hinner calls (by omega)).map some)

/-! ### The note -/

theorem puts_slot (slot : ConstSlot) : Puts n (putSlot slot) fun out => out ≠ [] ∧ Reads readManifestSlot out slot.toSlot := by
  have hrest := (puts_tag n slot.object).bind (puts_u32 n slot.rights.toNat)
  refine ((puts_str hn slot.name).bind hrest).mono fun out _ h => ?_
  obtain ⟨name, _, rfl, hname, _, _, rfl, rfl, rfl⟩ := h
  refine ⟨by simp, ?_⟩
  have hrights := (reads_u32 slot.rights.toNat_lt).map fun rights =>
    (⟨slot.name, slot.object, UInt32.ofNat rights⟩ : Slot)
  rw [UInt32.ofNat_toNat] at hrights
  exact hname.bind ((reads_byte slot.object).bind hrights)

theorem puts_slots : ∀ needs : List ConstSlot, Puts n (putSlots needs) fun out =>
    needs.length ≤ out.length ∧ Reads (times readManifestSlot needs.length) out (needs.map ConstSlot.toSlot)
  | [] => (Puts.pure n).mono fun out _ h => h ▸ ⟨Nat.zero_le _, Reads.pure []⟩
  | slot :: needs => by
    refine ((puts_slot hn slot).bind (puts_slots needs)).mono fun out _ h => ?_
    obtain ⟨a, b, rfl, ⟨hne, ha⟩, hcount, hb⟩ := h
    have hpos := length_pos_of_ne_nil hne
    rw [length_append, length_cons]
    exact ⟨by omega, ha.bind (hb.map _)⟩

theorem puts_payload (m : ConstManifest) : Puts n (putPayload m) fun out => ∃ body, out = [manifestVersion] ++ body ∧
      ∀ calls, body.length ≤ calls → Reads (readManifestBody calls) body m.toManifest := by
  have hslots := (puts_u32 n m.needs.length).bind (puts_slots hn m.needs)
  have hbody := (puts_optSchema hn m.input).bind ((puts_optSchema hn m.output).bind hslots)
  refine ((puts_tag n manifestVersion).bind hbody).mono fun out hout h => ?_
  obtain ⟨_, _, rfl, rfl, input, _, rfl, hinput, output, _, rfl, houtput, _, slots, rfl, rfl, hcount, hneeds⟩ := h
  refine ⟨_, rfl, fun calls hcalls => ?_⟩
  simp only [length_append] at hout hcalls
  have hneeds' := hneeds.map fun needs =>
    (⟨m.input.map ConstSchema.toTypeSchema, m.output.map ConstSchema.toTypeSchema, needs⟩ : Manifest)
  have hlen : m.needs.length < 2 ^ 32 := Nat.lt_of_le_of_lt hcount (by omega)
  exact (hinput calls (by omega)).bind ((houtput calls (by omega)).bind ((reads_u32 hlen).bind hneeds'))

end Schemas

theorem encodeManifest_eq (h : encodeManifest m = some note) :
    ∃ body zeros, note = toBytes 4 (body.length + 1) ++ ([manifestVersion] ++ (body ++ zeros)) ∧
      body.length + 1 < 2 ^ 32 ∧ ∀ calls, body.length ≤ calls → Reads (readManifestBody calls) body m.toManifest := by
  have hn : manifestBytes < 2 ^ 32 := by decide
  have h4 : 4 ≤ manifestBytes := by decide
  have hzeros : (List.replicate manifestBytes (0 : UInt8)).length = manifestBytes := length_replicate
  unfold encodeManifest at h
  generalize List.replicate manifestBytes (0 : UInt8) = zeros at hzeros h
  obtain ⟨⟨pos, buf⟩, hpayload, hprefix⟩ := bind_eq_some_iff.mp h
  obtain ⟨⟨pos', buf'⟩, hlength, hnote⟩ := bind_eq_some_iff.mp hprefix
  cases hnote
  have hbuf := (puts_payload hn m).length hzeros h4 hpayload
  obtain ⟨_, ⟨body, rfl, hread⟩, rfl, hle, rfl⟩ := puts_payload hn m _ _ _ _ hzeros h4 hpayload
  obtain ⟨_, rfl, rfl, -, hnote⟩ := puts_u32 manifestBytes _ _ _ _ _ hbuf (Nat.zero_le _) hlength
  rw [length_append, length_singleton] at hle
  have hfront : (zeros.take 4).length = 4 := by rw [length_take, hzeros]; omega
  refine ⟨body, zeros.drop (4 + ([manifestVersion] ++ body).length), ?_, by omega, hread⟩
  have hlen : 4 + ([manifestVersion] ++ body).length - 4 = body.length + 1 := by
    rw [length_append, length_singleton]
    omega
  rw [hlen, length_toBytes, take_zero, nil_append, append_assoc, append_assoc, Nat.zero_add, drop_left' hfront] at hnote
  exact hnote

/-- What the decoder makes of a length, the version, a body it can read, and more. -/
theorem decodeManifest_of_reads (hlen : body.length + 1 < 2 ^ 32)
    (hread : ∀ calls, body.length ≤ calls → Reads (readManifestBody calls) body manifest) (more : List UInt8) :
    decodeManifest (toBytes 4 (body.length + 1) ++ ([manifestVersion] ++ (body ++ more))) = .ok manifest := by
  have htotal : (toBytes 4 (body.length + 1) ++ ([manifestVersion] ++ (body ++ more))).length =
      body.length + 1 + more.length + 4 := by
    simp only [length_append, length_singleton, length_toBytes]
    omega
  have hbody := hread (body.length + 1 + more.length + 4) (by omega) more
  have hconsumed : body.length + 1 + more.length + 4 - more.length - 4 = body.length + 1 := by omega
  rw [decodeManifest, reads_u32 hlen]
  simp only [bind, Except.bind, reads_byte manifestVersion (body ++ more), htotal, hbody, hconsumed, ne_eq, not_true,
    if_false, pure, Except.pure]

/-- A program's manifest survives its ELF note: whenever the encoding fits, the note decodes to the projected
manifest, also with more bytes behind it, and only manifests with that projection have that note. -/
theorem manifest_survives_note (m : ConstManifest) (note : List UInt8) (h : encodeManifest m = some note) :
    decodeManifest note = .ok m.toManifest ∧
      (∀ more, decodeManifest (note ++ more) = .ok m.toManifest) ∧
      ∀ m' : ConstManifest, encodeManifest m' = some note → m'.toManifest = m.toManifest := by
  have hmore : ∀ m', encodeManifest m' = some note → ∀ more, decodeManifest (note ++ more) = .ok m'.toManifest := by
    intro m' h' more
    obtain ⟨body, zeros, rfl, hlen, hread⟩ := encodeManifest_eq h'
    simpa only [append_assoc] using decodeManifest_of_reads hlen hread (zeros ++ more)
  have hnote := hmore m h []
  rw [append_nil] at hnote
  refine ⟨hnote, hmore m h, fun m' h' => ?_⟩
  have hnote' := hmore m' h' []
  rw [append_nil, hnote] at hnote'
  exact (Except.ok.inj hnote').symm

/-- A program that takes a sequence of points and needs one capability. -/
def sampleManifest : ConstManifest where
  input := some (.seq (.product "Point" [(some "x", .i32), (none, .sum "Unit" [("mm", .u8)])]))
  output := none
  needs := [⟨"log", 3, 0x11⟩]

theorem manifest_survives_note_sample : ∃ note, encodeManifest sampleManifest = some note ∧ note.length = 1024 ∧
    decodeManifest note = .ok sampleManifest.toManifest := by
  have hlen : (encodeManifest sampleManifest).map List.length = some 1024 := by decide +kernel
  obtain ⟨note, h, hnote⟩ := map_eq_some_iff.mp hlen
  exact ⟨note, h, hnote, (manifest_survives_note sampleManifest note h).1⟩

end SnitchOs.Hitch
