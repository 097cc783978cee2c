import Mathlib.Algebra.Group.Int.Defs
import Mathlib.Algebra.Group.Nat.Defs
import Mathlib.Data.List.Basic

/-!
# Hitch values and their schemas

`Value` is the data that crosses a boundary, `TypeSchema` its shape. A float is its 64 bits, a string is
Lean's, which like the source's is valid UTF-8.
-/

namespace SnitchOs.Hitch

open List

inductive Value
  | bool (b : Bool)
  | i64 (n : Int64)
  | u64 (n : UInt64)
  | f64 (bits : UInt64)
  | str (s : String)
  | bytes (b : List UInt8)
  | seq (items : List Value)
  | product (typeName : String) (fields : List (Option String × Value))
  | sum (typeName variant : String) (payload : Value)

inductive TypeSchema
  | bool
  | i8
  | i16
  | i32
  | i64
  | u8
  | u16
  | u32
  | u64
  | f32
  | f64
  | str
  | bytes
  | seq (elem : TypeSchema)
  | product (typeName : String) (fields : List (Option String × TypeSchema))
  | sum (typeName : String) (variants : List (String × TypeSchema))

def uintFits (n : UInt64) (bytes : Nat) : Bool := bytes ≥ 8 || n.toNat < 2 ^ (bytes * 8)

def intFits (n : Int64) (bytes : Nat) : Bool :=
  if bytes ≥ 8 then true
  else
    let limit : Int := 2 ^ (bytes * 8 - 1)
    n.toInt ≥ -limit && n.toInt < limit

namespace TypeSchema

mutual

def accepts : TypeSchema → Value → Bool
  | .bool, .bool _ => true
  | .f32, .f64 _ => true
  | .f64, .f64 _ => true
  | .u64, .u64 _ => true
  | .i64, .i64 _ => true
  | .str, .str _ => true
  | .bytes, .bytes _ => true
  | .u8, .u64 n => uintFits n 1
  | .u16, .u64 n => uintFits n 2
  | .u32, .u64 n => uintFits n 4
  | .i8, .i64 n => intFits n 1
  | .i16, .i64 n => intFits n 2
  | .i32, .i64 n => intFits n 4
  | .seq elem, .seq items => items.all fun item => elem.accepts item
  | .product _ schema, .product _ actual => schema.length == actual.length && acceptsFields schema actual
  | .sum _ variants, .sum _ variant payload => acceptsVariant variants variant payload
  | _, _ => false
termination_by structural schema => schema

/-- All pairs of the zipped fields. -/
def acceptsFields : List (Option String × TypeSchema) → List (Option String × Value) → Bool
  | (sname, sshape) :: schema, (vname, vvalue) :: actual =>
    (sname == vname && sshape.accepts vvalue) && acceptsFields schema actual
  | _, _ => true
termination_by structural schema => schema

/-- Any variant of that name. -/
def acceptsVariant : List (String × TypeSchema) → String → Value → Bool
  | [], _, _ => false
  | (name, shape) :: variants, variant, payload =>
    (name == variant && shape.accepts payload) || acceptsVariant variants variant payload
termination_by structural variants => variants

end

mutual

/-- The value with every type name replaced by the schema's. -/
def relabel : TypeSchema → Value → Value
  | .seq elem, .seq items => .seq (items.map fun item => elem.relabel item)
  | .product typeName fields, .product _ actual => .product typeName (relabelFields fields actual)
  | .sum typeName variants, .sum _ variant payload => .sum typeName variant (relabelPayload variants variant payload)
  | _, value => value
termination_by structural schema => schema

def relabelFields : List (Option String × TypeSchema) → List (Option String × Value) → List (Option String × Value)
  | (_, sshape) :: schema, (vname, vvalue) :: actual => (vname, sshape.relabel vvalue) :: relabelFields schema actual
  | _, actual => actual
termination_by structural schema => schema

def relabelPayload : List (String × TypeSchema) → String → Value → Value
  | [], _, payload => payload
  | (name, shape) :: variants, variant, payload =>
    if name == variant then shape.relabel payload else relabelPayload variants variant payload
termination_by structural variants => variants

end

mutual

def parts : TypeSchema → List TypeSchema
  | .seq elem => .seq elem :: elem.parts
  | .product typeName fields => .product typeName fields :: partsFields fields
  | .sum typeName variants => .sum typeName variants :: partsVariants variants
  | schema => [schema]
termination_by structural schema => schema

def partsFields : List (Option String × TypeSchema) → List TypeSchema
  | [] => []
  | (_, schema) :: fields => schema.parts ++ partsFields fields
termination_by structural fields => fields

def partsVariants : List (String × TypeSchema) → List TypeSchema
  | [] => []
  | (_, schema) :: variants => schema.parts ++ partsVariants variants
termination_by structural variants => variants

end

end TypeSchema

namespace Value

mutual

def parts : Value → List Value
  | .seq items => .seq items :: partsItems items
  | .product typeName fields => .product typeName fields :: partsFields fields
  | .sum typeName variant payload => .sum typeName variant payload :: payload.parts
  | value => [value]
termination_by structural value => value

def partsItems : List Value → List Value
  | [] => []
  | item :: items => item.parts ++ partsItems items
termination_by structural items => items

def partsFields : List (Option String × Value) → List Value
  | [] => []
  | (_, value) :: fields => value.parts ++ partsFields fields
termination_by structural fields => fields

end

def lengthFits : Value → Bool
  | .str s => s.utf8ByteSize < 2 ^ 32
  | .bytes b => b.length < 2 ^ 32
  | .seq items => items.length < 2 ^ 32
  | _ => true

/-- So are those of all the strings, byte strings and sequences in it. -/
def Short (value : Value) : Prop := ∀ part ∈ value.parts, part.lengthFits = true

end Value

/-! ### Schemas -/

namespace TypeSchema

/-- Over schemas, with the fields and the variants as members of their lists. -/
@[induction_eliminator]
theorem induction {P : TypeSchema → Prop} (bool : P .bool) (i8 : P .i8) (i16 : P .i16) (i32 : P .i32)
    (i64 : P .i64) (u8 : P .u8) (u16 : P .u16) (u32 : P .u32) (u64 : P .u64) (f32 : P .f32) (f64 : P .f64)
    (str : P .str) (bytes : P .bytes) (seq : ∀ elem, P elem → P (.seq elem))
    (product : ∀ typeName fields, (∀ field ∈ fields, P field.2) → P (.product typeName fields))
    (sum : ∀ typeName variants, (∀ variant ∈ variants, P variant.2) → P (.sum typeName variants)) (s : TypeSchema) : P s :=
  @TypeSchema.rec P (fun fields => ∀ field ∈ fields, P field.2) (fun variants => ∀ variant ∈ variants, P variant.2)
    (fun field => P field.2) (fun variant => P variant.2)
    bool i8 i16 i32 i64 u8 u16 u32 u64 f32 f64 str bytes seq product sum
    (forall_mem_nil _) (fun _ _ head tail => forall_mem_cons.mpr ⟨head, tail⟩)
    (forall_mem_nil _) (fun _ _ head tail => forall_mem_cons.mpr ⟨head, tail⟩)
    (fun _ _ shape => shape) (fun _ _ shape => shape) s

theorem partsFields_eq (fields : List (Option String × TypeSchema)) :
    partsFields fields = fields.flatMap fun field => field.2.parts := by
  induction fields with
  | nil => rfl
  | cons field fields ih => exact congrArg (field.2.parts ++ ·) ih

theorem partsVariants_eq (variants : List (String × TypeSchema)) :
    partsVariants variants = variants.flatMap fun variant => variant.2.parts := by
  induction variants with
  | nil => rfl
  | cons variant variants ih => exact congrArg (variant.2.parts ++ ·) ih

theorem self_mem_parts (s : TypeSchema) : s ∈ s.parts := by
  cases s <;> exact mem_cons_self

variable {t : TypeSchema}

theorem mem_parts_seq {elem : TypeSchema} (h : t ∈ elem.parts) : t ∈ (seq elem).parts :=
  mem_cons_of_mem _ h

theorem mem_parts_product (hfield : field ∈ fields) (h : t ∈ field.2.parts) : t ∈ (product typeName fields).parts := by
  refine mem_cons_of_mem _ ?_
  rw [partsFields_eq]
  exact mem_flatMap.mpr ⟨field, hfield, h⟩

theorem mem_parts_sum (hvariant : variant ∈ variants) (h : t ∈ variant.2.parts) : t ∈ (sum typeName variants).parts := by
  refine mem_cons_of_mem _ ?_
  rw [partsVariants_eq]
  exact mem_flatMap.mpr ⟨variant, hvariant, h⟩

end TypeSchema

/-! ### Short values -/

namespace Value

theorem partsItems_eq (items : List Value) : partsItems items = items.flatMap parts := by
  induction items with
  | nil => rfl
  | cons item items ih => exact congrArg (item.parts ++ ·) ih

theorem partsFields_eq (fields : List (Option String × Value)) :
    partsFields fields = fields.flatMap fun field => field.2.parts := by
  induction fields with
  | nil => rfl
  | cons field fields ih => exact congrArg (field.2.parts ++ ·) ih

theorem short_seq (items : List Value) : (seq items).Short ↔ items.length < 2 ^ 32 ∧ ∀ item ∈ items, item.Short := by
  simp only [Short, parts, partsItems_eq, forall_mem_cons, forall_mem_flatMap, lengthFits, decide_eq_true_iff]

theorem short_product (typeName : String) (fields : List (Option String × Value)) :
    (product typeName fields).Short ↔ ∀ field ∈ fields, field.2.Short := by
  simp only [Short, parts, partsFields_eq, forall_mem_cons, forall_mem_flatMap, lengthFits, true_and]

theorem short_sum (typeName variant : String) (payload : Value) : (sum typeName variant payload).Short ↔ payload.Short := by
  simp [Short, parts, lengthFits, true_and]

end Value

end SnitchOs.Hitch
