import SnitchOs.Hitch.Manifest
import SnitchOs.Stitch.Value

/-!
# Stages as typed processes

What `~>` checks before it runs a stage: the interface of the stage's `main` as Hitch schemas, and the input as a
Hitch value.
-/

namespace SnitchOs.Hitch.TypeSchema

mutual

/-- The same shape, whatever the types are called. -/
def compatible : TypeSchema → TypeSchema → Bool
  | .bool, .bool | .i8, .i8 | .i16, .i16 | .i32, .i32 | .i64, .i64 | .u8, .u8 | .u16, .u16 | .u32, .u32 | .u64, .u64
  | .f32, .f32 | .f64, .f64 | .str, .str | .bytes, .bytes => true
  | .seq a, .seq b => compatible a b
  | .product _ a, .product _ b => a.length == b.length && compatibleFields a b
  | .sum _ a, .sum _ b => a.length == b.length && compatibleVariants a b
  | _, _ => false
termination_by structural a => a

def compatibleFields : List (Option String × TypeSchema) → List (Option String × TypeSchema) → Bool
  | (nameA, a) :: as, (nameB, b) :: bs => (nameA == nameB && compatible a b) && compatibleFields as bs
  | _, _ => true
termination_by structural as => as

def compatibleVariants : List (String × TypeSchema) → List (String × TypeSchema) → Bool
  | (nameA, a) :: as, (nameB, b) :: bs => (nameA == nameB && compatible a b) && compatibleVariants as bs
  | _, _ => true
termination_by structural as => as

end

end SnitchOs.Hitch.TypeSchema

namespace SnitchOs.Stitch

/-! ### Values -/

mutual

def toHitch : Value → Except Failure Hitch.Value
  | .int n => .ok (.i64 (Int64.ofInt n))
  | .float bits => .ok (.f64 bits)
  | .bool b => .ok (.bool b)
  | .str s => .ok (.str s)
  | .list items => (toHitchAll items).map .seq
  | .data typeName variant fields _ => do
    let fields ← toHitchFields fields
    let product := .product typeName fields
    pure (if variant = typeName then product else .sum typeName variant product)
  | other => faultText ("cannot hitch a " ++ other.kind)
termination_by structural v => v

def toHitchAll : List Value → Except Failure (List Hitch.Value)
  | [] => .ok []
  | v :: vs => do
    let value ← toHitch v
    let values ← toHitchAll vs
    pure (value :: values)
termination_by structural vs => vs

def toHitchFields : List (Option String × Value) → Except Failure (List (Option String × Hitch.Value))
  | [] => .ok []
  | (name, v) :: fields => do
    let value ← toHitch v
    let values ← toHitchFields fields
    pure ((name, value) :: values)
termination_by structural fields => fields

end

/-! ### Types -/

/-- A type of the program's own: `prod` or `sum`, its generics and its variants. -/
def typeDef (name : String) : Item → Option (List String × Option (List Field) × List Variant)
  | .prod tn generics fields _ => if tn = name then some (generics, some fields, []) else none
  | .sum tn generics variants _ => if tn = name then some (generics, none, variants) else none
  | _ => none

/-- `user` resolves the program's own types. -/
def schemaOf (user : String → Except Failure Hitch.TypeSchema) : TypeExpr → Except Failure Hitch.TypeSchema
  | .name "Int" [] => .ok .i64
  | .name "Float" [] => .ok .f64
  | .name "Bool" [] => .ok .bool
  | .name "Str" [] => .ok .str
  | .name "List" [elem] => (schemaOf user elem).map .seq
  | .name name [] => user name
  | .name name _ => faultText ("type `" ++ name ++ "` is not marshallable")
  | .func _ _ => faultText "a function type cannot cross a process boundary"
  | .tuple _ => faultText "a tuple type is not yet marshallable"
  | .selfType => faultText "the self-type `@` cannot be marshalled"

def fieldsSchema (user : String → Except Failure Hitch.TypeSchema) :
    List Field → Except Failure (List (Option String × Hitch.TypeSchema))
  | [] => .ok []
  | field :: fields => do
    let schema ← schemaOf user field.ty
    let schemas ← fieldsSchema user fields
    pure ((field.name, schema) :: schemas)

def variantsSchema (user : String → Except Failure Hitch.TypeSchema) (typeName : String) :
    List Variant → Except Failure (List (String × Hitch.TypeSchema))
  | [] => .ok []
  | variant :: variants => do
    let fields ← fieldsSchema user variant.fields
    let schemas ← variantsSchema user typeName variants
    pure ((variant.name, .product typeName fields) :: schemas)

/-- The types being resolved are among the items', so more rounds than items mean that one is met again. The last
declaration of a name counts. -/
def userSchema (items : List Item) : Nat → List String → String → Except Failure Hitch.TypeSchema
  | 0, _, name => faultText ("recursive type `" ++ name ++ "` is not marshallable")
  | rounds + 1, visiting, name =>
    match items.reverse.findSome? (typeDef name) with
    | none => faultText ("type `" ++ name ++ "` is not marshallable")
    | some (generics, fields, variants) =>
      if visiting.contains name then faultText ("recursive type `" ++ name ++ "` is not marshallable")
      else if !generics.isEmpty then faultText ("generic type `" ++ name ++ "` is not marshallable")
      else
        let user := userSchema items rounds (name :: visiting)
        match fields with
        | some fields => (fieldsSchema user fields).map (.product name)
        | none => (variantsSchema user name variants).map (.sum name)

def typeToSchema (items : List Item) : TypeExpr → Except Failure Hitch.TypeSchema :=
  schemaOf (userSchema items (items.length + 1) [])

/-- The signature of the first `main`. -/
def mainSignature : Item → Option (List Param × Option TypeExpr × List String)
  | .func name params ret uses _ _ => if name = "main" then some (params, ret, uses) else none
  | _ => none

def manifestOfMain (items : List Item) : Except Failure Hitch.Manifest :=
  match items.findSome? mainSignature with
  | none => faultText "no `main` function to derive a manifest from"
  | some (params, ret, uses) => do
    let input ←
      match params with
      | [] => pure none
      | [param] =>
        match param.ty with
        | none => faultText "a stage `main`'s input parameter must be typed"
        | some ty => (typeToSchema items ty).map some
      | _ => faultText "a stage `main` takes at most one input (the upstream value)"
    match ret with
    | none => faultText "a stage `main` must declare its return type"
    | some ret =>
      let output ← typeToSchema items ret
      pure ⟨input, some output, uses.map fun effect => ⟨effect, 0, 0⟩⟩

end SnitchOs.Stitch
