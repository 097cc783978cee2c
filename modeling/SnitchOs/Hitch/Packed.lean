import SnitchOs.Hitch.Value
import SnitchOs.Lib.LittleEndian
import SnitchOs.Lib.Serial

/-!
# The packed encoding

`hitch_packed` writes only data, by position, and `unhitch_packed` reads it back against the schema. The casts between
the two widths of float are a parameter, `cast`, which only an `F32` asks for.

For every schema the two are a `Serial.Codes`: by induction on the schema, each case from the pair for its leaf, its
element, its fields or its variants.
-/

namespace SnitchOs.Hitch

open LittleEndian Serial List UInt64

inductive Error
  | schemaMismatch
  | unexpectedEnd
  | trailingBytes
deriving DecidableEq

/-- `as f32` and `f64::from`, on bits. -/
structure FloatCast where
  narrow : UInt64 → UInt32
  widen : UInt32 → UInt64

/-! ### Writing -/

def pushU32 (n : Nat) (buf : List UInt8) : Except Error (List UInt8) :=
  if n < 2 ^ 32 then .ok (buf ++ toBytes 4 n) else .error .schemaMismatch

def pushUint (n : UInt64) (bytes : Nat) (buf : List UInt8) : Except Error (List UInt8) :=
  if !uintFits n bytes then .error .schemaMismatch else .ok (buf ++ (toBytes 8 n.toNat).take bytes)

def pushInt (n : Int64) (bytes : Nat) (buf : List UInt8) : Except Error (List UInt8) :=
  if !intFits n bytes then .error .schemaMismatch else .ok (buf ++ (toBytes 8 n.toUInt64.toNat).take bytes)

/-! ### Reading -/

abbrev Cursor := StateT (List UInt8) (Except Error)

def Cursor.take (n : Nat) : Cursor (List UInt8) := fun bytes =>
  if bytes.length < n then .error .unexpectedEnd else .ok (bytes.take n, bytes.drop n)

def Cursor.u32 : Cursor Nat := ofBytes <$> Cursor.take 4

def readUint (bytes : Nat) : Cursor UInt64 :=
  (fun raw => ofNat (ofBytes (raw ++ List.replicate (8 - bytes) 0x00))) <$> Cursor.take bytes

def readInt (bytes : Nat) : Cursor Int64 :=
  (fun raw =>
    let fill := if raw.getD (bytes - 1) 0 &&& 0x80 ≠ 0 then 0xFF else 0x00
    (ofNat (ofBytes (raw ++ List.replicate (8 - bytes) fill))).toInt64) <$> Cursor.take bytes

def readF64 : Cursor UInt64 := (fun raw => ofNat (ofBytes raw)) <$> Cursor.take 8

def toBool : List UInt8 → Option Bool
  | [0] => some false
  | [1] => some true
  | _ => none

def readBool : Cursor Bool := do
  let raw ← Cursor.take 1
  ofOption .schemaMismatch (toBool raw)

def readBytes : Cursor (List UInt8) := do
  let len ← Cursor.u32
  Cursor.take len

def fromUtf8 (bytes : List UInt8) : Option String := String.fromUTF8? ⟨bytes.toArray⟩

def readStr : Cursor String := do
  let bytes ← readBytes
  ofOption .schemaMismatch (fromUtf8 bytes)

/-! ### The two traversals -/

section Traversals

variable (cast : FloatCast)

mutual

def pack : Value → TypeSchema → List UInt8 → Except Error (List UInt8)
  | .bool b, .bool, buf => .ok (buf ++ [if b then 1 else 0])
  | .u64 n, .u8, buf => pushUint n 1 buf
  | .u64 n, .u16, buf => pushUint n 2 buf
  | .u64 n, .u32, buf => pushUint n 4 buf
  | .u64 n, .u64, buf => pushUint n 8 buf
  | .i64 n, .i8, buf => pushInt n 1 buf
  | .i64 n, .i16, buf => pushInt n 2 buf
  | .i64 n, .i32, buf => pushInt n 4 buf
  | .i64 n, .i64, buf => pushInt n 8 buf
  | .f64 n, .f32, buf => .ok (buf ++ toBytes 4 (cast.narrow n).toNat)
  | .f64 n, .f64, buf => .ok (buf ++ toBytes 8 n.toNat)
  | .str s, .str, buf => do
    let buf ← pushU32 s.utf8ByteSize buf
    .ok (buf ++ s.toUTF8.data.toList)
  | .bytes b, .bytes, buf => do
    let buf ← pushU32 b.length buf
    .ok (buf ++ b)
  | .seq items, .seq elem, buf => do
    let buf ← pushU32 items.length buf
    items.foldlM (fun buf item => pack item elem buf) buf
  | .product _ valueFields, .product _ schemaFields, buf =>
    if schemaFields.length ≠ valueFields.length then .error .schemaMismatch
    else packFields schemaFields valueFields buf
  | .sum _ variant payload, .sum _ variants, buf =>
    match variants.findIdx? fun v => v.1 == variant with
    | none => .error .schemaMismatch
    | some idx => do
      let buf ← pushU32 idx buf
      packAt variants idx payload buf
  | _, _, _ => .error .schemaMismatch
termination_by structural _ schema => schema

def packFields : List (Option String × TypeSchema) → List (Option String × Value) → List UInt8 →
    Except Error (List UInt8)
  | (sname, sshape) :: schemaFields, (vname, vvalue) :: valueFields, buf =>
    if sname == vname then do
      let buf ← pack vvalue sshape buf
      packFields schemaFields valueFields buf
    else .error .schemaMismatch
  | _, _, buf => .ok buf
termination_by structural schemaFields => schemaFields

/-- Against `variants[idx]`. -/
def packAt : List (String × TypeSchema) → Nat → Value → List UInt8 → Except Error (List UInt8)
  | [], _, _, _ => .error .schemaMismatch
  | (_, shape) :: _, 0, payload, buf => pack payload shape buf
  | _ :: variants, idx + 1, payload, buf => packAt variants idx payload buf
termination_by structural variants => variants

end

mutual

def unpack : TypeSchema → Cursor Value
  | .bool => .bool <$> readBool
  | .u8 => .u64 <$> readUint 1
  | .u16 => .u64 <$> readUint 2
  | .u32 => .u64 <$> readUint 4
  | .u64 => .u64 <$> readUint 8
  | .i8 => .i64 <$> readInt 1
  | .i16 => .i64 <$> readInt 2
  | .i32 => .i64 <$> readInt 4
  | .i64 => .i64 <$> readInt 8
  | .f32 => (fun raw => .f64 (cast.widen (UInt32.ofNat (ofBytes raw)))) <$> Cursor.take 4
  | .f64 => .f64 <$> readF64
  | .str => .str <$> readStr
  | .bytes => .bytes <$> readBytes
  | .seq elem => .seq <$> do
    let count ← Cursor.u32
    times (unpack elem) count
  | .product typeName fields => .product typeName <$> unpackFields fields
  | .sum typeName variants => (fun chosen => .sum typeName chosen.1 chosen.2) <$> do
    let idx ← Cursor.u32
    unpackAt variants idx
termination_by structural schema => schema

def unpackFields : List (Option String × TypeSchema) → Cursor (List (Option String × Value))
  | [] => pure []
  | (name, fieldSchema) :: fields => do
    let value ← unpack fieldSchema
    ((name, value) :: ·) <$> unpackFields fields
termination_by structural fields => fields

/-- `variants.get(idx)`, its name and its payload. -/
def unpackAt : List (String × TypeSchema) → Nat → Cursor (String × Value)
  | [], _ => throw .schemaMismatch
  | (name, variantSchema) :: _, 0 => (name, ·) <$> unpack variantSchema
  | _ :: variants, idx + 1 => unpackAt variants idx
termination_by structural variants => variants

end

def hitchPacked (value : Value) (schema : TypeSchema) : Except Error (List UInt8) := pack cast value schema []

def unhitchPacked (bytes : List UInt8) (schema : TypeSchema) : Except Error Value :=
  match (unpack cast schema).run bytes with
  | .error e => .error e
  | .ok (value, rest) => if rest.isEmpty then .ok value else .error .trailingBytes

end Traversals

variable {n k : Nat}

/-! ### Words -/

theorem Cursor.reads_take (h : out.length = n) : Reads (Cursor.take n) out out := by
  intro rest
  subst h
  have hlt : ¬ (out ++ rest).length < out.length := by
    rw [length_append]
    omega
  rw [StateT.run, Cursor.take, if_neg hlt, take_left, drop_left]

theorem Cursor.take_ok (h : (Cursor.take n).run bytes = .ok (raw, rest)) : raw.length = n ∧ bytes = raw ++ rest := by
  rw [StateT.run, Cursor.take] at h
  split at h
  · cases h
  cases h
  exact ⟨by rw [length_take]; omega, (take_append_drop n bytes).symm⟩

/-- A fixed number of bytes, every choice of which is the encoding of one value. -/
theorem codes_word {γ : Type} {A : γ → Prop} (enc : γ → List UInt8) {dec : List UInt8 → γ}
    {w : γ → List UInt8 → Except Error (List UInt8)} (henc : ∀ g, A g → (enc g).length = n ∧ dec (enc g) = g)
    (hdec : ∀ raw, raw.length = n → A (dec raw) ∧ enc (dec raw) = raw) (hw : ∀ g, A g → Writes (w g) (enc g))
    (hfails : ∀ g, ¬ A g → Fails (w g)) : Codes A id w (dec <$> Cursor.take n) where
  accepted g hg := by
    obtain ⟨hlen, hround⟩ := henc g hg
    refine ⟨enc g, hw g hg, ?_⟩
    have hread := (Cursor.reads_take hlen).map dec
    rwa [hround] at hread
  rejected := hfails
  canonical bytes g rest hrun := by
    obtain ⟨raw, htake, rfl⟩ := run_map_ok hrun
    obtain ⟨hlen, hbytes⟩ := Cursor.take_ok htake
    obtain ⟨hA, hround⟩ := hdec raw hlen
    have hwrite := hw _ hA
    rw [hround] at hwrite
    exact ⟨hA, raw, hbytes, hwrite⟩

theorem codes_u32 : Codes (· < 2 ^ 32) id pushU32 Cursor.u32 := by
  refine codes_word (toBytes 4) (fun n hn => ⟨length_toBytes 4 n, ?_⟩) (fun raw hraw => ⟨?_, ?_⟩) ?_ ?_
  · rw [ofBytes_toBytes]
    exact Nat.mod_eq_of_lt hn
  · have := ofBytes_lt raw
    rwa [hraw] at this
  · rw [← hraw, toBytes_ofBytes]
  · intro n hn buf
    rw [pushU32, if_pos hn]
  · intro n hn buf
    exact ⟨_, by rw [pushU32, if_neg hn]⟩

theorem uintFits_iff {n : UInt64} (hk : k ≤ 8) : uintFits n k = true ↔ n.toNat < 256 ^ k := by
  have hn := n.toNat_lt
  have hpow : 2 ^ (k * 8) = 256 ^ k := by rw [Nat.mul_comm, Nat.pow_mul]
  rw [uintFits, hpow, Bool.or_eq_true, decide_eq_true_iff, decide_eq_true_iff]
  refine ⟨fun h => h.elim (fun h8 => ?_) id, Or.inr⟩
  obtain rfl : k = 8 := by omega
  exact hn

theorem codes_uint (hk : k ≤ 8) : Codes (fun n => uintFits n k = true) id (fun n => pushUint n k) (readUint k) := by
  have hpow : 256 ^ k ≤ 256 ^ 8 := Nat.pow_le_pow_right (by decide) hk
  have hzeros : ∀ raw : List UInt8, ofBytes (raw ++ List.replicate (8 - k) 0x00) = ofBytes raw := fun raw => by
    rw [ofBytes_append, ofBytes_replicate_zero, Nat.mul_zero, Nat.add_zero]
  refine codes_word (fun n => (toBytes 8 n.toNat).take k) (fun n hn => ?_) (fun raw hraw => ?_) ?_ ?_
  · rw [take_toBytes hk, hzeros, ofBytes_toBytes, Nat.mod_eq_of_lt ((uintFits_iff hk).mp hn)]
    exact ⟨length_toBytes k _, UInt64.ofNat_toNat⟩
  · have hlt := ofBytes_lt raw
    rw [hraw] at hlt
    have hnat : (ofNat (ofBytes raw)).toNat = ofBytes raw :=
      toNat_ofNat_of_lt' (Nat.lt_of_lt_of_le hlt hpow)
    rw [hzeros, uintFits_iff hk, take_toBytes hk, hnat]
    exact ⟨hlt, by rw [← hraw, toBytes_ofBytes]⟩
  · intro n hn buf
    simp [pushUint, hn, Bool.not_true, Bool.false_eq_true]
  · intro n hn buf
    exact ⟨.schemaMismatch, by simp only [pushUint, Bool.eq_false_iff.mpr hn, Bool.not_false, if_true]⟩

theorem toInt_eq (n : Int64) :
    n.toInt = if 2 * n.toUInt64.toNat < 2 ^ 64 then (n.toUInt64.toNat : Int) else n.toUInt64.toNat - 2 ^ 64 := by
  have hbits : n.toInt = n.toUInt64.toBitVec.toInt := rfl
  rfl

variable (hk : k = 1 ∨ k = 2 ∨ k = 4 ∨ k = 8)
include hk

theorem intFits_iff {n : Int64} :
    intFits n k = true ↔ 2 * n.toUInt64.toNat < 256 ^ k ∨ 2 ^ 65 ≤ 2 * n.toUInt64.toNat + 256 ^ k := by
  have hN := n.toUInt64.toNat_lt
  have hn := toInt_eq n
  rcases hk with rfl | rfl | rfl | rfl <;> simp [intFits] <;> split at hn <;> omega

theorem signExtend_shed (hN : N < 2 ^ 64) (hfits : 2 * N < 256 ^ k ∨ 2 ^ 65 ≤ 2 * N + 256 ^ k) :
    (if 2 * (N % 256 ^ k) < 256 ^ k then N % 256 ^ k else N % 256 ^ k + (256 ^ 8 - 256 ^ k)) = N := by
  rcases hk with rfl | rfl | rfl | rfl <;> split <;> omega

theorem codes_int : Codes (fun n => intFits n k = true) id (fun n => pushInt n k) (readInt k) := by
  have hle : k ≤ 8 := by omega
  have hpow : 256 ^ k ≤ 256 ^ 8 := Nat.pow_le_pow_right (by decide) hle
  have hwide : ∀ raw : List UInt8, raw.length = k →
      ofBytes (raw ++ List.replicate (8 - k) (if raw.getD (k - 1) 0 &&& 0x80 ≠ 0 then 0xFF else 0x00)) =
        if 2 * ofBytes raw < 256 ^ k then ofBytes raw else ofBytes raw + (256 ^ 8 - 256 ^ k) := by
    rintro raw rfl
    exact ofBytes_signExtend (ne_nil_of_length_pos (by omega)) hle
  refine codes_word (fun n => (toBytes 8 n.toUInt64.toNat).take k) (fun n hn => ?_) (fun raw hraw => ?_) ?_ ?_
  · dsimp only
    rw [take_toBytes hle, hwide _ (length_toBytes k _), ofBytes_toBytes,
      signExtend_shed hk n.toUInt64.toNat_lt ((intFits_iff hk).mp hn), UInt64.ofNat_toNat]
    exact ⟨length_toBytes k _, n.toInt64_toUInt64⟩
  · dsimp only
    have hlt := ofBytes_lt raw
    have htake := congrArg (List.take k) (toBytes_ofBytes
      (raw ++ List.replicate (8 - k) (if raw.getD (k - 1) 0 &&& 0x80 ≠ 0 then 0xFF else 0x00)))
    rw [length_append, length_replicate, hraw, Nat.add_sub_cancel' hle, take_left' hraw] at htake
    rw [hwide raw hraw] at htake ⊢
    rw [hraw] at hlt
    have hnat := toNat_ofNat_of_lt'
      (show (if 2 * ofBytes raw < 256 ^ k then ofBytes raw else ofBytes raw + (256 ^ 8 - 256 ^ k)) < size by
        rw [show size = 256 ^ 8 from rfl]
        split <;> omega)
    rw [intFits_iff hk, toUInt64_toInt64, hnat]
    exact ⟨by split <;> omega, htake⟩
  · intro n hn buf
    simp [pushInt, hn, Bool.not_true, Bool.false_eq_true]
  · intro n hn buf
    exact ⟨.schemaMismatch, by simp only [pushInt, Bool.eq_false_iff.mpr hn, Bool.not_false, if_true]⟩

omit hk

theorem codes_f64 : Codes (fun _ => True) id
    (fun (n : UInt64) buf => (.ok (buf ++ toBytes 8 n.toNat) : Except Error (List UInt8))) readF64 := by
  refine codes_word (fun n => toBytes 8 n.toNat) (fun n _ => ⟨length_toBytes 8 _, ?_⟩) (fun raw hraw => ⟨trivial, ?_⟩)
    (fun _ _ _ => rfl) (fun _ h => absurd trivial h)
  · rw [ofBytes_toBytes, Nat.mod_eq_of_lt (show n.toNat < 256 ^ 8 from n.toNat_lt), UInt64.ofNat_toNat]
  have hlt := ofBytes_lt raw
  rw [hraw] at hlt
  rw [toNat_ofNat_of_lt' hlt, ← hraw, toBytes_ofBytes]

theorem codes_bool : Codes (fun _ => True) id
    (fun (b : Bool) buf => (.ok (buf ++ [if b then 1 else 0]) : Except Error (List UInt8))) readBool := by
  have hbyte : Codes (fun raw : List UInt8 => raw.length = 1) id
      (fun raw buf => if raw.length = 1 then .ok (buf ++ raw) else .error .schemaMismatch) (id <$> Cursor.take 1) :=
    codes_word id (fun _ h => ⟨h, rfl⟩) (fun _ h => ⟨h, rfl⟩) (fun _ h _ => if_pos h) (fun _ h _ => ⟨_, if_neg h⟩)
  have hchecked := hbyte.checked (fun b : Bool => [if b then (1 : UInt8) else 0]) toBool (by decide) ?_ Error.schemaMismatch
  · simpa [readBool] using hchecked
  intro raw b h
  unfold toBool at h
  split at h <;> cases h <;> rfl

theorem codes_bytes : Codes (fun b => b.length < 2 ^ 32) id
    (fun (b : List UInt8) buf => pushU32 b.length buf >>= fun buf => (.ok (buf ++ b) : Except Error (List UInt8))) readBytes where
  accepted b hb := by
    obtain ⟨out, hw, hr⟩ := codes_u32.accepted b.length hb
    exact ⟨out ++ b, hw.bind fun _ => rfl, hr.bind (Cursor.reads_take rfl)⟩
  rejected b hb := (codes_u32.rejected b.length hb).bind _
  canonical bytes b rest hrun := by
    obtain ⟨len, mid, hlen, htake⟩ := run_bind_ok hrun
    obtain ⟨rfl, rfl⟩ := Cursor.take_ok htake
    obtain ⟨hlt, out, rfl, hw⟩ := codes_u32.canonical _ _ _ hlen
    exact ⟨hlt, out ++ b, (append_assoc _ _ _).symm, hw.bind fun _ => rfl⟩

theorem fromUtf8_eq_some_iff (bytes : List UInt8) (s : String) : fromUtf8 bytes = some s ↔ s.toUTF8.data.toList = bytes := by
  rw [fromUtf8, String.fromUTF8?]
  constructor
  · intro h
    split at h
    · cases h
      rfl
    · cases h
  · rintro rfl
    have hbytes : (⟨s.toUTF8.data.toList.toArray⟩ : ByteArray) = s.toByteArray := rfl
    rw [dif_pos (hbytes ▸ s.isValidUTF8)]
    rfl

theorem codes_str : Codes (fun s => s.utf8ByteSize < 2 ^ 32) id (fun (s : String) buf => pushU32 s.utf8ByteSize buf >>= fun buf =>
      (.ok (buf ++ s.toUTF8.data.toList) : Except Error (List UInt8))) readStr :=
  codes_bytes.checked (fun s : String => s.toUTF8.data.toList) fromUtf8 (fun s => (fromUtf8_eq_some_iff _ s).mpr rfl)
    (fun bytes s h => (fromUtf8_eq_some_iff bytes s).mp h) .schemaMismatch

end SnitchOs.Hitch
