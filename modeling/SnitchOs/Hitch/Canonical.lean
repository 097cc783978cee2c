import SnitchOs.Hitch.Packed
import Mathlib.Data.List.Nodup

/-!
# The packed encoding is faithful and canonical

A value is packed exactly when the schema accepts it, it comes back with the schema's type names, and no other bytes
unpack to it. A `Sum` numbers its variants in 32 bits, so a variant behind the first `2^32` is accepted and
still cannot be packed.
-/

namespace SnitchOs.Hitch

open LittleEndian Serial List TypeSchema Value

variable {cast : FloatCast}

def Conforms (s : TypeSchema) (v : Value) : Prop := s.accepts v = true ∧ v.Short

/-- What is to be shown of a schema. -/
def Packs (cast : FloatCast) (s : TypeSchema) : Prop :=
  Codes (Conforms s) s.relabel (fun v => pack cast v s) (unpack cast s)

/-! ### Views of a value -/

namespace Value

def bool? : Value → Option Bool
  | .bool b => some b
  | _ => none

def f64? : Value → Option UInt64
  | .f64 n => some n
  | _ => none

def str? : Value → Option String
  | .str s => some s
  | _ => none

def bytes? : Value → Option (List UInt8)
  | .bytes b => some b
  | _ => none

def seq? : Value → Option (List Value)
  | .seq items => some items
  | _ => none

def product? : Value → Option (List (Option String × Value))
  | .product _ values => some values
  | _ => none

def sum? : Value → Option (String × Value)
  | .sum _ variant payload => some (variant, payload)
  | _ => none

end Value

/-! ### Leaves -/

/-- A schema of the values `c g` alone, which hold no other value. -/
structure LeafAt (cast : FloatCast) (s : TypeSchema) {γ : Type} (A : γ → Prop)
    (w : γ → List UInt8 → Except Error (List UInt8)) (c : γ → Value) (view : Value → Option γ) (v : Value) : Prop where
  view_iff : ∀ g, view v = some g ↔ v = c g
  conforms_iff : Conforms s v ↔ ∃ g, view v = some g ∧ A g
  pack_eq : ∀ buf, pack cast v s buf = match view v with | some g => w g buf | none => .error .schemaMismatch
  relabel_eq : s.relabel v = v

variable {s shape : TypeSchema} {values : List (Option String × Value)} {idx : Nat}
  {k i n : Nat} {bytes : List UInt8} {variant : String × TypeSchema}

theorem packs_leaf {γ : Type} {A : γ → Prop} {w : γ → List UInt8 → Except Error (List UInt8)} {r : Cursor γ}
    (h : Codes A id w r) {c : γ → Value} (view : Value → Option γ) (hleaf : ∀ v, LeafAt cast s A w c view v)
    (hunpack : unpack cast s = c <$> r) : Packs cast s := by
  rw [Packs, hunpack]
  refine h.embed c view (fun g => ((hleaf _).view_iff g).mpr rfl) (fun v => (hleaf v).conforms_iff)
    (fun v g hg => ⟨?_, ?_⟩) (fun v hv buf => ?_)
  · funext buf
    rw [(hleaf v).pack_eq, hg]
  · rw [(hleaf v).relabel_eq]
    exact ((hleaf v).view_iff g).mp hg
  · exact ⟨.schemaMismatch, by rw [(hleaf v).pack_eq, hv]⟩

section Leaves

attribute [local simp] accepts pack relabel Conforms Short Value.parts lengthFits

theorem packs_uint (hk : k ≤ 8) (haccepts : ∀ v, s.accepts v = match v with | .u64 n => uintFits n k | _ => false)
    (hpack : ∀ v buf, pack cast v s buf = match v with | .u64 n => pushUint n k buf | _ => .error .schemaMismatch)
    (hrelabel : ∀ v, s.relabel v = v) (hunpack : unpack cast s = .u64 <$> readUint k) : Packs cast s := by
  refine packs_leaf (codes_uint hk) (fun | .u64 n => some n | _ => none) (fun v => ?_) hunpack
  constructor <;> cases v <;> simp [haccepts, hpack, hrelabel]

theorem packs_int (hk : k = 1 ∨ k = 2 ∨ k = 4 ∨ k = 8)
    (haccepts : ∀ v, s.accepts v = match v with | .i64 n => intFits n k | _ => false)
    (hpack : ∀ v buf, pack cast v s buf = match v with | .i64 n => pushInt n k buf | _ => .error .schemaMismatch)
    (hrelabel : ∀ v, s.relabel v = v) (hunpack : unpack cast s = .i64 <$> readInt k) : Packs cast s := by
  refine packs_leaf (codes_int hk) (fun | .i64 n => some n | _ => none) (fun v => ?_) hunpack
  constructor <;> cases v <;> simp [haccepts, hpack, hrelabel]

theorem packs_bool : Packs cast .bool := by
  refine packs_leaf codes_bool bool? (fun v => ?_) rfl
  constructor <;> cases v <;> simp [bool?]

theorem packs_f64 : Packs cast .f64 := by
  refine packs_leaf codes_f64 f64? (fun v => ?_) rfl
  constructor <;> cases v <;> simp [f64?]

theorem packs_str : Packs cast .str := by
  refine packs_leaf codes_str str? (fun v => ?_) rfl
  constructor <;> cases v <;> simp [str?]

theorem packs_bytes : Packs cast .bytes := by
  refine packs_leaf codes_bytes bytes? (fun v => ?_) rfl
  constructor <;> cases v <;> simp [bytes?]

end Leaves

/-! ### Sequences -/

theorem codes_counted {α : Type} {A : α → Prop} {norm : α → α} {w : α → List UInt8 → Except Error (List UInt8)}
    {r : Cursor α} (h : Codes A norm w r) : Codes (fun as => as.length < 2 ^ 32 ∧ ∀ a ∈ as, A a) (List.map norm)
      (fun (as : List α) buf => pushU32 as.length buf >>= fun buf => as.foldlM (fun buf a => w a buf) buf)
      (Cursor.u32 >>= fun count => times r count) where
  accepted as has := by
    obtain ⟨out, hw, hr⟩ := codes_u32.accepted as.length has.1
    obtain ⟨out', hw', hr'⟩ := h.accepted_list has.2
    exact ⟨out ++ out', hw.bind hw', hr.bind hr'⟩
  rejected as has := by
    by_cases hlen : as.length < 2 ^ 32
    · obtain ⟨out, hw, -⟩ := codes_u32.accepted as.length hlen
      exact hw.bind_fails (h.rejected_list fun hall => has ⟨hlen, hall⟩)
    · exact (codes_u32.rejected as.length hlen).bind _
  canonical bytes as rest hrun := by
    obtain ⟨count, mid, hcount, hitems⟩ := run_bind_ok hrun
    obtain ⟨rfl, hall, out', rfl, hw'⟩ := h.canonical_list hitems
    obtain ⟨hlt, out, rfl, hw⟩ := codes_u32.canonical _ _ _ hcount
    exact ⟨⟨hlt, hall⟩, out ++ out', (append_assoc _ _ _).symm, hw.bind hw'⟩

theorem packs_seq {elem : TypeSchema} (h : Packs cast elem) : Packs cast (.seq elem) := by
  refine (codes_counted h).embed Value.seq seq? (fun _ => rfl) ?_ ?_ ?_
  · intro v
    cases v with
    | seq items =>
      simp only [Conforms, accepts, short_seq, all_eq_true]
      constructor
      · rintro ⟨hall, hlen, hshort⟩
        exact ⟨items, rfl, hlen, fun item hitem => ⟨hall item hitem, hshort item hitem⟩⟩
      · rintro ⟨items', heq, hlen, hall⟩
        cases heq
        exact ⟨fun item hitem => (hall item hitem).1, hlen, fun item hitem => (hall item hitem).2⟩
    | _ => simp [Conforms, accepts, seq?]
  · intro v items hitems
    cases v <;> cases hitems
    exact ⟨rfl, rfl⟩
  · intro v hv buf
    cases v <;> first | exact ⟨_, rfl⟩ | cases hv

/-! ### Products -/

/-- Field by field, under the same names. -/
def ConformsFields (fields : List (Option String × TypeSchema)) (values : List (Option String × Value)) : Prop :=
  List.Forall₂ (fun field value => field.1 = value.1 ∧ Conforms field.2 value.2) fields values

theorem conforms_product (typeName typeName' : String) (fields : List (Option String × TypeSchema))
    (values : List (Option String × Value)) :
    Conforms (.product typeName fields) (.product typeName' values) ↔ ConformsFields fields values := by
  rw [Conforms, short_product, accepts, Bool.and_eq_true, beq_iff_eq, ConformsFields]
  induction fields generalizing values with
  | nil => cases values <;> simp [acceptsFields]
  | cons field fields ih =>
    cases values with
    | nil => simp
    | cons value values =>
      rw [forall₂_cons, ← ih, forall_mem_cons, acceptsFields, Bool.and_eq_true, Bool.and_eq_true,
        beq_iff_eq, length_cons, length_cons, Nat.add_right_cancel_iff, Conforms]
      tauto

theorem packFields_cons (name : Option String) (shape : TypeSchema) (value : Value)
    (fields : List (Option String × TypeSchema)) (values : List (Option String × Value)) :
    packFields cast ((name, shape) :: fields) ((name, value) :: values) =
      fun buf => pack cast value shape buf >>= packFields cast fields values := by
  funext buf
  rw [packFields, if_pos (beq_self_eq_true name)]

section Fields

variable {fields : List (Option String × TypeSchema)} (hfields : ∀ field ∈ fields, Packs cast field.2)
include hfields

theorem accepted_fields (h : ConformsFields fields values) : ∃ out, Writes (packFields cast fields values) out ∧
      Reads (unpackFields cast fields) out (relabelFields fields values) := by
  induction h with
  | nil => exact ⟨[], Writes.nil, Reads.pure []⟩
  | @cons field value fields values hhead _ ih =>
    obtain ⟨name, shape⟩ := field
    obtain ⟨name', value⟩ := value
    obtain ⟨rfl, hconforms⟩ := hhead
    obtain ⟨hshape, hfields⟩ := forall_mem_cons.mp hfields
    obtain ⟨out, hw, hr⟩ := hshape.accepted value hconforms
    obtain ⟨out', hw', hr'⟩ := ih hfields
    refine ⟨out ++ out', ?_, hr.bind (hr'.map _)⟩
    rw [packFields_cons]
    exact hw.bind hw'

theorem rejected_fields (hlen : fields.length = values.length) (hnot : ¬ ConformsFields fields values) :
    Fails (packFields cast fields values) := by
  induction fields generalizing values with
  | nil =>
    cases values with
    | nil => exact absurd .nil hnot
    | cons value values => cases hlen
  | cons field fields ih =>
    cases values with
    | nil => cases hlen
    | cons value values =>
      obtain ⟨name, shape⟩ := field
      obtain ⟨name', value⟩ := value
      obtain ⟨hshape, hfields⟩ := forall_mem_cons.mp hfields
      by_cases hname : name = name'
      · subst hname
        rw [packFields_cons]
        by_cases hconforms : Conforms shape value
        · obtain ⟨out, hw, -⟩ := hshape.accepted value hconforms
          exact hw.bind_fails (ih hfields (Nat.succ.inj hlen) fun h => hnot (.cons ⟨rfl, hconforms⟩ h))
        · exact (hshape.rejected value hconforms).bind _
      · intro buf
        exact ⟨.schemaMismatch, by simp [packFields, hname]⟩

theorem canonical_fields (hrun : (unpackFields cast fields).run bytes = .ok (values, rest)) :
    ConformsFields fields values ∧ ∃ out, bytes = out ++ rest ∧ Writes (packFields cast fields values) out := by
  induction fields generalizing bytes values with
  | nil =>
    cases hrun
    exact ⟨.nil, [], rfl, Writes.nil⟩
  | cons field fields ih =>
    obtain ⟨name, shape⟩ := field
    obtain ⟨hshape, hfields⟩ := forall_mem_cons.mp hfields
    obtain ⟨value, mid, hvalue, hrun⟩ := run_bind_ok hrun
    obtain ⟨values, hvalues, rfl⟩ := run_map_ok hrun
    obtain ⟨hconforms, out, rfl, hw⟩ := hshape.canonical _ _ _ hvalue
    obtain ⟨hconformsAll, out', rfl, hw'⟩ := ih hfields hvalues
    refine ⟨.cons ⟨rfl, hconforms⟩ hconformsAll, out ++ out', (append_assoc _ _ _).symm, ?_⟩
    rw [packFields_cons]
    exact hw.bind hw'

theorem packs_product (typeName : String) : Packs cast (.product typeName fields) := by
  have hcodes : Codes (ConformsFields fields) (relabelFields fields)
      (fun values buf => if fields.length ≠ values.length then .error .schemaMismatch
        else packFields cast fields values buf) (unpackFields cast fields) := by
    refine ⟨fun values h => ?_, fun values h => ?_, fun bytes values rest hrun => ?_⟩
    · simpa [List.Forall₂.length_eq h] using accepted_fields hfields h
    · by_cases hlen : fields.length = values.length
      · simpa [hlen] using rejected_fields hfields hlen h
      · exact fun buf => ⟨.schemaMismatch, if_pos hlen⟩
    · obtain ⟨h, hout⟩ := canonical_fields hfields hrun
      exact ⟨h, by simpa [List.Forall₂.length_eq h] using hout⟩
  refine hcodes.embed (Value.product typeName) product? (fun _ => rfl) ?_ ?_ ?_
  · intro v
    cases v with
    | product typeName' values => simp [conforms_product, product?]
    | _ => simp [Conforms, accepts, product?]
  · intro v values hvalues
    cases v <;> cases hvalues
    exact ⟨rfl, rfl⟩
  · intro v hv buf
    cases v <;> first | exact ⟨_, rfl⟩ | cases hv

end Fields

/-! ### Sums -/

section Variants

variable {variants : List (String × TypeSchema)}

theorem acceptsVariant_iff (name : String) (payload : Value) : acceptsVariant variants name payload = true ↔
      ∃ shape, (name, shape) ∈ variants ∧ shape.accepts payload = true := by
  induction variants with
  | nil => simp [acceptsVariant]
  | cons variant variants ih =>
    obtain ⟨name', shape⟩ := variant
    rw [acceptsVariant, Bool.or_eq_true, Bool.and_eq_true, beq_iff_eq, ih]
    constructor
    · rintro (⟨rfl, haccepts⟩ | ⟨shape, hmem, haccepts⟩)
      · exact ⟨shape, mem_cons_self, haccepts⟩
      · exact ⟨shape, mem_cons_of_mem _ hmem, haccepts⟩
    · rintro ⟨shape', hmem, haccepts⟩
      rcases mem_cons.mp hmem with heq | hmem
      · cases heq
        exact .inl ⟨rfl, haccepts⟩
      · exact .inr ⟨shape', hmem, haccepts⟩

theorem packAt_eq (h : variants[idx]? = some variant) (payload : Value) :
    packAt cast variants idx payload = pack cast payload variant.2 := by
  induction variants generalizing idx with
  | nil => cases h
  | cons _ variants ih =>
    cases idx with
    | zero => cases h; rfl
    | succ idx => exact ih h

theorem unpackAt_eq (h : variants[idx]? = some variant) :
    unpackAt cast variants idx = (variant.1, ·) <$> unpack cast variant.2 := by
  induction variants generalizing idx with
  | nil => cases h
  | cons _ variants ih =>
    cases idx with
    | zero => cases h; rfl
    | succ idx => exact ih h

theorem unpackAt_of_none (h : variants[idx]? = none) : unpackAt cast variants idx = throw .schemaMismatch := by
  induction variants generalizing idx with
  | nil => rfl
  | cons _ variants ih =>
    cases idx with
    | zero => cases h
    | succ idx => exact ih h

variable (hdistinct : (variants.map Prod.fst).Nodup)
include hdistinct

theorem shape_unique (h : (name, shape) ∈ variants) (h' : (name, shape') ∈ variants) : shape = shape' :=
  congrArg Prod.snd (inj_on_of_nodup_map hdistinct h h' rfl)

theorem relabelPayload_eq (h : (name, shape) ∈ variants) (payload : Value) :
    relabelPayload variants name payload = shape.relabel payload := by
  induction variants with
  | nil => cases h
  | cons variant variants ih =>
    obtain ⟨name', shape'⟩ := variant
    rw [relabelPayload]
    split
    case isTrue heq =>
      obtain rfl : name' = name := eq_of_beq heq
      rw [shape_unique hdistinct mem_cons_self h]
    case isFalse hne =>
      refine ih (nodup_cons.mp hdistinct).2 ((mem_cons.mp h).resolve_left fun heq => hne ?_)
      cases heq
      exact beq_self_eq_true name

theorem findIdx?_variant (h : variants[idx]? = some (name, shape)) : variants.findIdx? (fun v => v.1 == name) = some idx := by
  obtain ⟨hlt, hget⟩ := List.getElem?_eq_some_iff.mp h
  refine findIdx?_eq_some_iff_getElem.mpr ⟨hlt, by simp [hget], fun j hj heq => ?_⟩
  refine nodup_iff_getElem?_ne_getElem?.mp hdistinct j idx hj (by simpa using hlt) ?_
  rw [getElem?_map, getElem?_map, h, getElem?_eq_getElem (hj.trans hlt)]
  exact congrArg some (eq_of_beq heq)

/-- The index of the variant, and its payload. -/
def packChosen (cast : FloatCast) (variants : List (String × TypeSchema)) (chosen : String × Value) (buf : List UInt8) :
    Except Error (List UInt8) :=
  match variants.findIdx? fun v => v.1 == chosen.1 with
  | none => .error .schemaMismatch
  | some idx => do
    let buf ← pushU32 idx buf
    packAt cast variants idx chosen.2 buf

theorem packChosen_eq (h : variants[idx]? = some (name, shape)) (payload : Value) :
    packChosen cast variants (name, payload) = fun buf => pushU32 idx buf >>= pack cast payload shape := by
  funext buf
  rw [packChosen, findIdx?_variant hdistinct h, ← packAt_eq h]

variable (hfew : variants.length ≤ 2 ^ 32) (hvariants : ∀ variant ∈ variants, Packs cast variant.2)
include hfew hvariants

theorem codes_variants : Codes (fun chosen => ∃ shape, (chosen.1, shape) ∈ variants ∧ Conforms shape chosen.2)
      (fun chosen => (chosen.1, relabelPayload variants chosen.1 chosen.2))
      (packChosen cast variants) (Cursor.u32 >>= unpackAt cast variants) where
  accepted := by
    rintro ⟨name, payload⟩ ⟨shape, hmem, hconforms⟩
    obtain ⟨idx, hlt, hget⟩ := mem_iff_getElem.mp hmem
    have hvariant : variants[idx]? = some (name, shape) := List.getElem?_eq_some_iff.mpr ⟨hlt, hget⟩
    obtain ⟨out, hw, hr⟩ := codes_u32.accepted idx (Nat.lt_of_lt_of_le hlt hfew)
    obtain ⟨out', hw', hr'⟩ := (hvariants _ hmem).accepted payload hconforms
    refine ⟨out ++ out', ?_, ?_⟩
    · rw [packChosen_eq hdistinct hvariant]
      exact hw.bind hw'
    rw [relabelPayload_eq hdistinct hmem]
    refine hr.bind ?_
    rw [id, unpackAt_eq hvariant]
    exact hr'.map _
  rejected := by
    rintro ⟨name, payload⟩ hnot
    cases hidx : variants.findIdx? fun v => v.1 == name with
    | none => exact fun buf => ⟨.schemaMismatch, by rw [packChosen, hidx]⟩
    | some idx =>
      obtain ⟨hlt, hname, -⟩ := findIdx?_eq_some_iff_getElem.mp hidx
      have hmem := getElem_mem hlt
      have hvariant : variants[idx]? = some (name, variants[idx].2) :=
        List.getElem?_eq_some_iff.mpr ⟨hlt, Prod.ext (eq_of_beq hname) rfl⟩
      obtain ⟨out, hw, -⟩ := codes_u32.accepted idx (Nat.lt_of_lt_of_le hlt hfew)
      rw [packChosen_eq hdistinct hvariant]
      refine hw.bind_fails ((hvariants _ hmem).rejected payload fun hconforms => hnot ⟨_, ?_, hconforms⟩)
      exact mem_of_getElem? hvariant
  canonical := by
    rintro bytes ⟨name, payload⟩ rest hrun
    obtain ⟨idx, mid, hidx, hchosen⟩ := run_bind_ok hrun
    obtain ⟨-, out, rfl, hw⟩ := codes_u32.canonical _ _ _ hidx
    cases hvariant : variants[idx]? with
    | none =>
      rw [unpackAt_of_none hvariant] at hchosen
      cases hchosen
    | some variant =>
      rw [unpackAt_eq hvariant] at hchosen
      obtain ⟨payload, hpayload, heq⟩ := run_map_ok hchosen
      cases heq
      have hmem := mem_of_getElem? hvariant
      obtain ⟨hconforms, out', rfl, hw'⟩ := (hvariants _ hmem).canonical _ _ _ hpayload
      refine ⟨⟨variant.2, hmem, hconforms⟩, out ++ out', (append_assoc _ _ _).symm, ?_⟩
      rw [packChosen_eq hdistinct hvariant]
      exact hw.bind hw'

theorem packs_sum (typeName : String) : Packs cast (.sum typeName variants) := by
  refine (codes_variants hdistinct hfew hvariants).embed (fun chosen => Value.sum typeName chosen.1 chosen.2)
    sum? (fun _ => rfl) ?_ ?_ ?_
  · intro v
    cases v with
    | sum typeName' variant payload =>
      simp only [Conforms, accepts, short_sum, acceptsVariant_iff]
      constructor
      · rintro ⟨⟨shape, hmem, haccepts⟩, hshort⟩
        exact ⟨_, rfl, shape, hmem, haccepts, hshort⟩
      · rintro ⟨_, heq, shape, hmem, haccepts, hshort⟩
        cases heq
        exact ⟨⟨shape, hmem, haccepts⟩, hshort⟩
    | _ => simp [Conforms, accepts, sum?]
  · intro v chosen hchosen
    cases v <;> cases hchosen
    exact ⟨rfl, rfl⟩
  · intro v hv buf
    cases v <;> first | exact ⟨_, rfl⟩ | cases hv

end Variants

/-! ### All schemas -/

namespace TypeSchema

/-- The variant names of every `Sum` in it are distinct. -/
def DistinctVariants (s : TypeSchema) : Prop :=
  ∀ typeName variants, .sum typeName variants ∈ s.parts → (variants.map Prod.fst).Nodup

/-- No `Sum` in it has more variants than the index can number. -/
def FewVariants (s : TypeSchema) : Prop :=
  ∀ typeName variants, .sum typeName variants ∈ s.parts → variants.length ≤ 2 ^ 32

end TypeSchema

theorem packs_of_fewVariants (hf32 : .f32 ∉ s.parts) (hdistinct : s.DistinctVariants) (hfew : s.FewVariants) : Packs cast s := by
  induction s with
  | bool => exact packs_bool
  | u8 | u16 | u32 | u64 =>
    exact packs_uint (by decide) (fun v => by cases v <;> rfl) (fun v _ => by cases v <;> rfl) (fun v => by cases v <;> rfl) rfl
  | i8 | i16 | i32 | i64 =>
    exact packs_int (by decide) (fun v => by cases v <;> rfl) (fun v _ => by cases v <;> rfl) (fun v => by cases v <;> rfl) rfl
  | f32 => exact absurd (self_mem_parts .f32) hf32
  | f64 => exact packs_f64
  | str => exact packs_str
  | bytes => exact packs_bytes
  | seq elem ih =>
    exact packs_seq (ih (fun h => hf32 (mem_parts_seq h))
      (fun n vs h => hdistinct n vs (mem_parts_seq h)) (fun n vs h => hfew n vs (mem_parts_seq h)))
  | product typeName fields ih =>
    refine packs_product (fun field hfield => ih field hfield ?_ ?_ ?_) typeName
    · exact fun h => hf32 (mem_parts_product hfield h)
    · exact fun n vs h => hdistinct n vs (mem_parts_product hfield h)
    · exact fun n vs h => hfew n vs (mem_parts_product hfield h)
  | sum typeName variants ih =>
    have hself := self_mem_parts (.sum typeName variants)
    refine packs_sum (hdistinct _ _ hself) (hfew _ _ hself) (fun variant hvariant => ih variant hvariant ?_ ?_ ?_) typeName
    · exact fun h => hf32 (mem_parts_sum hvariant h)
    · exact fun n vs h => hdistinct n vs (mem_parts_sum hvariant h)
    · exact fun n vs h => hfew n vs (mem_parts_sum hvariant h)

theorem unhitchPacked_eq_ok_iff : unhitchPacked cast bytes s = .ok w ↔ (unpack cast s).run bytes = .ok (w, []) := by
  rw [unhitchPacked]
  split
  case h_1 e he => simp [he]
  case h_2 value rest hok =>
    rw [hok]
    cases rest <;> simp

/-- On short values packing succeeds where the schema accepts, and is undone by unpacking up to type names. What
unpacks is accepted, and packs to the same bytes. -/
theorem packed_faithful_canonical (cast : FloatCast) (s : TypeSchema) (hf32 : .f32 ∉ s.parts)
    (hdistinct : s.DistinctVariants) (hfew : s.FewVariants) :
    (∀ v : Value, v.Short → ((∃ bytes, hitchPacked cast v s = .ok bytes) ↔ s.accepts v = true)) ∧
    (∀ (v : Value) (bytes : List UInt8), v.Short → hitchPacked cast v s = .ok bytes →
      unhitchPacked cast bytes s = .ok (s.relabel v)) ∧
    ∀ (bytes : List UInt8) (w : Value), unhitchPacked cast bytes s = .ok w →
      s.accepts w = true ∧ hitchPacked cast w s = .ok bytes := by
  have hpacks : Packs cast s := packs_of_fewVariants hf32 hdistinct hfew
  refine ⟨fun v hshort => ?_, fun v bytes hshort hbytes => ?_, fun bytes w hw => ?_⟩
  · exact (hpacks.ok_iff v []).trans (and_iff_left hshort)
  · obtain ⟨out, hwrites, hreads⟩ := hpacks.accepted v ((hpacks.ok_iff v []).mp ⟨bytes, hbytes⟩)
    obtain rfl : out = bytes := Except.ok.inj ((hwrites []).symm.trans hbytes)
    have hrun := hreads []
    rw [append_nil] at hrun
    exact unhitchPacked_eq_ok_iff.mpr hrun
  · obtain ⟨hconforms, out, rfl, hwrites⟩ := hpacks.canonical _ _ _ (unhitchPacked_eq_ok_iff.mp hw)
    exact ⟨hconforms.1, by rw [append_nil]; exact hwrites []⟩

def optionI8 : TypeSchema := .sum "Option" [("None", .product "None" []), ("Some", .i8)]

theorem packed_faithful_canonical_some :
    hitchPacked ⟨UInt64.toUInt32, UInt32.toUInt64⟩ (.sum "Maybe" "Some" (.i64 (-2))) optionI8 =
      .ok [1, 0, 0, 0, 0xFE] ∧
    unhitchPacked ⟨UInt64.toUInt32, UInt32.toUInt64⟩ [1, 0, 0, 0, 0xFE] optionI8 =
      .ok (.sum "Option" "Some" (.i64 (-2))) := by
  have hpacked : hitchPacked ⟨UInt64.toUInt32, UInt32.toUInt64⟩ (.sum "Maybe" "Some" (.i64 (-2))) optionI8 =
      .ok [1, 0, 0, 0, 0xFE] := by rfl
  have hsum : ∀ typeName variants, .sum typeName variants ∈ optionI8.parts →
      variants = [("None", .product "None" []), ("Some", .i8)] := by
    simp [optionI8, TypeSchema.parts, partsVariants, TypeSchema.partsFields]
  refine ⟨hpacked, (packed_faithful_canonical _ optionI8 ?_ ?_ ?_).2.1 _ _ ?_ hpacked⟩
  · simp [optionI8, TypeSchema.parts, partsVariants, TypeSchema.partsFields]
  · intro typeName variants h
    rw [hsum _ _ h]
    decide
  · intro typeName variants h
    rw [hsum _ _ h]
    decide
  · simp [Short, Value.parts, lengthFits]

/-! ### Too many variants -/

def tally (i : Nat) : String := String.ofList (List.replicate i 'i')

theorem tally_injective : Function.Injective tally := by
  intro i j h
  have := congrArg (List.length ∘ String.toList) h
  simpa [tally] using this

/-- `n` variants, all of them a `Bool`. -/
def tallies (n : Nat) : List (String × TypeSchema) := (List.range n).map fun i => (tally i, .bool)

theorem mem_parts_tallies (h : t ∈ (TypeSchema.sum "Tally" (tallies n)).parts) : t = .sum "Tally" (tallies n) ∨ t = .bool := by
  rw [TypeSchema.parts, partsVariants_eq, mem_cons, mem_flatMap] at h
  refine h.imp_right ?_
  rintro ⟨variant, hvariant, ht⟩
  obtain ⟨i, -, rfl⟩ := mem_map.mp hvariant
  exact mem_singleton.mp ht

theorem distinct_tallies (n : Nat) : ((tallies n).map Prod.fst).Nodup := by
  rw [tallies, map_map]
  exact nodup_range.map tally_injective

theorem getElem?_tallies (h : i < n) : (tallies n)[i]? = some (tally i, .bool) := by
  rw [tallies, getElem?_map, getElem?_range h]
  rfl

theorem accepts_tally (h : i < n) (b : Bool) :
    (TypeSchema.sum "Tally" (tallies n)).accepts (.sum "Tally" (tally i) (.bool b)) = true :=
  (acceptsVariant_iff _ _).mpr ⟨.bool, mem_of_getElem? (getElem?_tallies h), rfl⟩

theorem hitchPacked_tally (h : i < n) (b : Bool) :
    hitchPacked cast (.sum "Tally" (tally i) (.bool b)) (.sum "Tally" (tallies n)) = pushU32 i [] >>= pack cast (.bool b) .bool :=
  congrFun (packChosen_eq (distinct_tallies n) (getElem?_tallies h) (.bool b)) []

/-- A variant behind the first `2^32` is accepted and not packed. -/
theorem late_variant_not_packed : ∃ (s : TypeSchema) (v : Value), .f32 ∉ s.parts ∧ s.DistinctVariants ∧ v.Short ∧
    s.accepts v = true ∧ ∀ cast, hitchPacked cast v s = .error .schemaMismatch := by
  refine ⟨.sum "Tally" (tallies (2 ^ 32 + 1)), .sum "Tally" (tally (2 ^ 32)) (.bool true), ?_, ?_, ?_, ?_, ?_⟩
  · intro h
    rcases mem_parts_tallies h with h | h <;> cases h
  · intro typeName variants h
    rcases mem_parts_tallies h with h | h
    · cases h
      exact distinct_tallies _
    · cases h
  · simp [Short, Value.parts, lengthFits]
  · exact accepts_tally (Nat.lt_succ_self _) true
  intro cast
  have hpushed : pushU32 (2 ^ 32) [] = .error .schemaMismatch := if_neg (Nat.lt_irrefl _)
  rw [hitchPacked_tally (Nat.lt_succ_self _), hpushed]
  rfl

end SnitchOs.Hitch
