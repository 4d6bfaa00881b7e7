import Mathlib.Data.List.AList

/-!
# Field descriptors and the schema registry

A `std::string` is its bytes, and an `unordered_map` is an association list with
distinct keys.  Two insertions are used and they differ: `emplace` leaves an entry
that is already there alone, while assignment through `operator[]` is
`AList.insert` and replaces it.
-/

namespace ApexEngine
namespace Core

/-- A `std::string`: its bytes. -/
abbrev Name := List UInt8

/-- `unordered_map<std::string, α>`. -/
abbrev StringMap (α : Type) := AList fun _ : Name => α

/-- `core::DataType`, an enumeration over `uint8_t`.  A cast from `int` may give
any value of the underlying type. -/
structure DataType where
  val : UInt8
  deriving DecidableEq, Repr

namespace DataType

def uint64 : DataType := ⟨0⟩
def int64 : DataType := ⟨1⟩
def uint32 : DataType := ⟨2⟩
def int32 : DataType := ⟨3⟩
def float64 : DataType := ⟨4⟩

end DataType

/-- `core::FieldDescriptor`. -/
structure FieldDescriptor where
  name : Name
  offset : BitVec 32
  bitWidth : BitVec 32
  type : DataType
  deriving DecidableEq, Repr

/-- `unordered_map::emplace`: an entry that is already there stays. -/
def emplace {α : Type} (m : StringMap α) (k : Name) (v : α) : StringMap α :=
  if k ∈ m then m else m.insert k v

theorem lookup_emplace {α : Type} (m : StringMap α) (k k' : Name) (v : α) :
    (emplace m k v).lookup k' =
      if k = k' then some ((m.lookup k).getD v) else m.lookup k' := by
  unfold emplace
  by_cases hk : k ∈ m
  · rw [if_pos hk]
    obtain ⟨w, hw⟩ := Option.isSome_iff_exists.mp (AList.lookup_isSome.mpr hk)
    by_cases hkk : k = k'
    · subst hkk
      simp [hw]
    · rw [if_neg hkk]
  · rw [if_neg hk]
    have hnone : m.lookup k = none := AList.lookup_eq_none.mpr hk
    by_cases hkk : k = k'
    · subst hkk
      simp [hnone, AList.lookup_insert]
    · rw [if_neg hkk, AList.lookup_insert_ne (Ne.symm hkk)]

/-- `SchemaRegistry::FieldMap`. -/
abbrev FieldMap := StringMap FieldDescriptor

/-- `SchemaRegistry`. -/
structure SchemaRegistry where
  schemas : StringMap FieldMap

namespace SchemaRegistry

/-- A registry with no schema. -/
def empty : SchemaRegistry := ⟨∅⟩

/-- The field map of a field list: the loop of `register_schema`. -/
def fieldMap (fields : List FieldDescriptor) : FieldMap :=
  fields.foldl (fun m f => emplace m f.name f) ∅

/-- `SchemaRegistry::register_schema`. -/
def registerSchema (r : SchemaRegistry) (schemaName : Name) (fields : List FieldDescriptor) :
    SchemaRegistry :=
  ⟨emplace r.schemas schemaName (fieldMap fields)⟩

/-- `SchemaRegistry::get_field`.  The pointer it returns is to an entry that no
operation of the registry changes or removes, so it is given as the descriptor. -/
def getField (r : SchemaRegistry) (schemaName fieldName : Name) : Option FieldDescriptor :=
  (r.schemas.lookup schemaName).bind fun m => m.lookup fieldName

/-- `SchemaRegistry::has_schema`. -/
def hasSchema (r : SchemaRegistry) (schemaName : Name) : Bool := decide (schemaName ∈ r.schemas)

/-! ## What is found -/

theorem lookup_foldl_emplace (fields : List FieldDescriptor) (m : FieldMap) (f : Name) :
    (fields.foldl (fun m f => emplace m f.name f) m).lookup f =
      (m.lookup f).or (fields.find? fun d => d.name == f) := by
  induction fields generalizing m with
  | nil => simp
  | cons d ds ih =>
    rw [List.foldl_cons, ih, lookup_emplace, List.find?_cons]
    by_cases hd : d.name = f
    · subst hd
      cases h : m.lookup d.name <;> simp
    · have hbeq : (d.name == f) = false := by simpa using hd
      simp [hd, hbeq]

/-- In a field list the first descriptor of a name is the one that counts. -/
theorem lookup_fieldMap (fields : List FieldDescriptor) (f : Name) :
    (fieldMap fields).lookup f = fields.find? fun d => d.name == f := by
  rw [fieldMap, lookup_foldl_emplace]
  simp

/-- Registering a schema changes what is found only if the name is new. -/
theorem getField_registerSchema (r : SchemaRegistry) (s s' f : Name)
    (fields : List FieldDescriptor) :
    (r.registerSchema s fields).getField s' f =
      if s = s' ∧ s ∉ r.schemas then fields.find? fun d => d.name == f else r.getField s' f := by
  rw [getField, registerSchema, lookup_emplace]
  by_cases hs : s = s'
  · subst hs
    by_cases hmem : s ∈ r.schemas
    · obtain ⟨m, hm⟩ := Option.isSome_iff_exists.mp (AList.lookup_isSome.mpr hmem)
      simp [hmem, getField, hm]
    · have hnone : r.schemas.lookup s = none := AList.lookup_eq_none.mpr hmem
      simp [hmem, hnone, lookup_fieldMap]
  · simp [hs, getField]

/-- A field once found is found with the same descriptor ever after. -/
theorem getField_registerSchema_of_some {r : SchemaRegistry} {s' f : Name} {d : FieldDescriptor}
    (h : r.getField s' f = some d) (s : Name) (fields : List FieldDescriptor) :
    (r.registerSchema s fields).getField s' f = some d := by
  rw [getField_registerSchema]
  split
  · rename_i hc
    obtain ⟨rfl, hnew⟩ := hc
    have hnone : r.schemas.lookup s = none := AList.lookup_eq_none.mpr hnew
    rw [getField, hnone] at h
    exact absurd h (by simp)
  · exact h

/-- What is found under a name has this name. -/
def Named (r : SchemaRegistry) : Prop := ∀ s f d, r.getField s f = some d → d.name = f

theorem named_empty : empty.Named := fun _ _ _ h => absurd h (by simp [getField, empty])

theorem Named.registerSchema {r : SchemaRegistry} (h : r.Named) (s : Name)
    (fields : List FieldDescriptor) : (r.registerSchema s fields).Named := by
  intro s' f d hd
  rw [getField_registerSchema] at hd
  split at hd
  · simpa using List.find?_some hd
  · exact h s' f d hd

end SchemaRegistry
end Core
end ApexEngine
