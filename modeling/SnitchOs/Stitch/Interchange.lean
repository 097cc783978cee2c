import SnitchOs.Hitch.Packed
import SnitchOs.Stitch.Bridge

/-!
# What the check of a pipeline buys

Two schemas are compatible when they are the same up to the names of the types. Nothing else reads these names: such
schemas accept and write the same values alike, and read the same bytes as values that differ in their type names.
-/

namespace SnitchOs.Hitch

open Serial List TypeSchema

namespace TypeSchema

mutual

def erase : TypeSchema → TypeSchema
  | .seq elem => .seq elem.erase
  | .product _ fields => .product "" (eraseFields fields)
  | .sum _ variants => .sum "" (eraseVariants variants)
  | schema => schema
termination_by structural schema => schema

def eraseFields : List (Option String × TypeSchema) → List (Option String × TypeSchema)
  | [] => []
  | (name, schema) :: fields => (name, schema.erase) :: eraseFields fields
termination_by structural fields => fields

def eraseVariants : List (String × TypeSchema) → List (String × TypeSchema)
  | [] => []
  | (name, schema) :: variants => (name, schema.erase) :: eraseVariants variants
termination_by structural variants => variants

end

end TypeSchema

mutual

def Value.erase : Value → Value
  | .seq items => .seq (Value.eraseItems items)
  | .product _ fields => .product "" (Value.eraseFields fields)
  | .sum _ variant payload => .sum "" variant payload.erase
  | value => value
termination_by structural value => value

def Value.eraseItems : List Value → List Value
  | [] => []
  | item :: items => item.erase :: Value.eraseItems items
termination_by structural items => items

def Value.eraseFields : List (Option String × Value) → List (Option String × Value)
  | [] => []
  | (name, value) :: fields => (name, value.erase) :: Value.eraseFields fields
termination_by structural fields => fields

end

namespace TypeSchema

@[simp]
theorem length_eraseFields (fields : List (Option String × TypeSchema)) : (eraseFields fields).length = fields.length := by
  induction fields with
  | nil => rfl
  | cons field fields ih => rw [eraseFields, length_cons, length_cons, ih]

theorem compatible_iff (a b : TypeSchema) : a.compatible b = true ↔ a.erase = b.erase := by
  induction a generalizing b with
  | seq elem ih => cases b <;> simp [compatible, erase, ih]
  | product _ fields ih =>
    cases b with
    | product _ fields' =>
      suffices fields.length = fields'.length ∧ compatibleFields fields fields' = true ↔
          eraseFields fields = eraseFields fields' by simpa [compatible, erase]
      induction fields generalizing fields' with
      | nil => cases fields' <;> simp [compatibleFields, eraseFields]
      | cons field fields ihs =>
        obtain ⟨hfield, hfields⟩ := forall_mem_cons.mp ih
        cases fields' with
        | nil => simp [eraseFields]
        | cons field' fields' => simp [compatibleFields, eraseFields, hfield, ← ihs hfields, and_assoc, and_left_comm]
    | _ => simp [compatible, erase]
  | sum _ variants ih =>
    cases b with
    | sum _ variants' =>
      suffices variants.length = variants'.length ∧ compatibleVariants variants variants' = true ↔
          eraseVariants variants = eraseVariants variants' by simpa [compatible, erase]
      induction variants generalizing variants' with
      | nil => cases variants' <;> simp [compatibleVariants, eraseVariants]
      | cons field fields ihs =>
        obtain ⟨hfield, hfields⟩ := forall_mem_cons.mp ih
        cases variants' with
        | nil => simp [eraseVariants]
        | cons field' fields' => simp [compatibleVariants, eraseVariants, hfield, ← ihs hfields, and_assoc, and_left_comm]
    | _ => simp [compatible, erase]
  | _ => cases b <;> simp [compatible, erase]

theorem accepts_erase (s : TypeSchema) (v : Value) : s.erase.accepts v = s.accepts v := by
  induction s generalizing v with
  | seq elem ih => cases v <;> simp [erase, accepts, ih]
  | product _ fields ih =>
    cases v with
    | product _ actual =>
      simp only [erase, accepts, length_eraseFields]
      congr 1
      induction fields generalizing actual with
      | nil => rfl
      | cons field fields ihs =>
        obtain ⟨hfield, hfields⟩ := forall_mem_cons.mp ih
        cases actual with
        | nil => rfl
        | cons value actual => rw [eraseFields, acceptsFields, acceptsFields, hfield, ihs hfields]
    | _ => rfl
  | sum _ variants ih =>
    cases v with
    | sum _ variant payload =>
      simp only [erase, accepts]
      induction variants with
      | nil => rfl
      | cons shape variants ihs =>
        obtain ⟨hshape, hvariants⟩ := forall_mem_cons.mp ih
        rw [eraseVariants, acceptsVariant, acceptsVariant, hshape, ihs hvariants]
    | _ => rfl
  | _ => rfl

end TypeSchema

section Packed

open TypeSchema (eraseFields eraseVariants length_eraseFields)

variable (cast : FloatCast)

theorem pack_erase (s : TypeSchema) (v : Value) (buf : List UInt8) : pack cast v s.erase buf = pack cast v s buf := by
  induction s generalizing v buf with
  | seq elem ih => cases v <;> simp [erase, pack, ih]
  | product _ fields ih =>
    cases v with
    | product _ actual =>
      simp only [erase, pack, length_eraseFields]
      congr 1
      induction fields generalizing actual buf with
      | nil => rfl
      | cons field fields ihs =>
        obtain ⟨hfield, hfields⟩ := forall_mem_cons.mp ih
        cases actual with
        | nil => rfl
        | cons value actual => simp [eraseFields, packFields, hfield, ihs hfields]
    | _ => rfl
  | sum _ variants ih =>
    cases v with
    | sum _ variant payload =>
      have hfind : (eraseVariants variants).findIdx? (fun v => v.1 == variant) =
          variants.findIdx? fun v => v.1 == variant := by
        clear ih
        induction variants with
        | nil => rfl
        | cons shape variants ihs => rw [eraseVariants, findIdx?_cons, findIdx?_cons, ihs]
      have hat : ∀ idx buf, packAt cast (eraseVariants variants) idx payload buf =
          packAt cast variants idx payload buf := by
        clear hfind
        induction variants with
        | nil => exact fun _ _ => rfl
        | cons shape variants ihs =>
          obtain ⟨hshape, hvariants⟩ := forall_mem_cons.mp ih
          intro idx buf
          cases idx with
          | zero => exact hshape payload buf
          | succ idx => exact ihs hvariants idx buf
      simp [erase, pack, hfind, hat]
    | _ => rfl
  | _ => rfl

theorem times_map {α β : Type} (f : α → β) (r : Cursor α) (n : Nat) : times (f <$> r) n = map f <$> times r n := by
  induction n with
  | zero => rfl
  | succ n ih => simp [times, ih]

theorem unpack_erase (s : TypeSchema) : unpack cast s.erase = Value.erase <$> unpack cast s := by
  induction s with
  | seq elem ih =>
    have hitems : Value.eraseItems = map Value.erase := by
      funext items
      induction items with
      | nil => rfl
      | cons item items ih => rw [Value.eraseItems, ih, map_cons]
    simp [erase, unpack, ih, times_map, Value.erase, hitems]
  | product _ fields ih =>
    suffices h : unpackFields cast (eraseFields fields) = Value.eraseFields <$> unpackFields cast fields by
      simp [erase, unpack, h, Value.erase]
    induction fields with
    | nil => rfl
    | cons field fields ihs =>
      obtain ⟨hfield, hfields⟩ := forall_mem_cons.mp ih
      simp [eraseFields, unpackFields, hfield, ihs hfields, Value.eraseFields]
  | sum _ variants ih =>
    suffices h : ∀ idx, unpackAt cast (eraseVariants variants) idx = Prod.map id Value.erase <$> unpackAt cast variants idx by
      simp [erase, unpack, h, Value.erase]
    induction variants with
    | nil => exact fun _ => rfl
    | cons shape variants ihs =>
      obtain ⟨hshape, hvariants⟩ := forall_mem_cons.mp ih
      intro idx
      cases idx with
      | zero => simp [eraseVariants, unpackAt, hshape]
      | succ idx => exact ihs hvariants idx
  | _ => simp [erase, unpack, Value.erase]

theorem unhitchPacked_erase (bytes : List UInt8) (s : TypeSchema) :
    unhitchPacked cast bytes s.erase = (unhitchPacked cast bytes s).map Value.erase := by
  rw [unhitchPacked, unhitchPacked, unpack_erase, StateT.run_map]
  cases (unpack cast s).run bytes with
  | error e => rfl
  | ok r =>
    change (if r.2.isEmpty then _ else _) = Except.map _ (if r.2.isEmpty then _ else _)
    split <;> rfl

end Packed

/-- An equivalence, and whatever is compatible accepts, writes and reads the same, up to type names in what is read. -/
theorem compatible_interchange (cast : FloatCast) :
    Equivalence (fun a b : TypeSchema => a.compatible b = true) ∧ ∀ a b : TypeSchema, a.compatible b = true →
      (∀ v, a.accepts v = b.accepts v) ∧ (∀ v, hitchPacked cast v a = hitchPacked cast v b) ∧
      ∀ bytes, (unhitchPacked cast bytes a).map Value.erase = (unhitchPacked cast bytes b).map Value.erase := by
  refine ⟨⟨fun a => (a.compatible_iff a).mpr rfl, fun {a b} h => ?_, fun {a b c} h h' => ?_⟩, fun a b h => ?_⟩
  · rw [compatible_iff] at h ⊢
    exact h.symm
  · rw [compatible_iff] at h h' ⊢
    exact h.trans h'
  rw [compatible_iff] at h
  refine ⟨fun v => ?_, fun v => ?_, fun bytes => ?_⟩
  · rw [← a.accepts_erase, h, b.accepts_erase]
  · rw [hitchPacked, ← pack_erase, h, pack_erase, hitchPacked]
  · rw [← unhitchPacked_erase, h, unhitchPacked_erase]

end SnitchOs.Hitch
