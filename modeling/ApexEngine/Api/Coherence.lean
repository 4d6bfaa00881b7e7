import ApexEngine.Api.CApi

/-!
# What an engine knows of a schema

Two maps describe a schema: the registry has its fields and the metadata its stride.
Registering a name again replaces the stride and leaves the fields as they were, so the
two are of one registration only as long as every registration of a name gives the
fields of the first (`coherent_iff`).

The C interface adds its casts.  What it reports as registered is found as it was passed
when the name is new and every offset and width fits 32 bits, and when the name is known
with these very fields, and not otherwise (`foundAsPassed_iff`).
-/

namespace ApexEngine
namespace Api

open A64 (Word)
open Core (Name SchemaRegistry FieldDescriptor)

/-- The descriptor of a name in a list of fields. -/
def fieldNamed (fields : List FieldDescriptor) (f : Name) : Option FieldDescriptor :=
  fields.find? fun d => d.name == f

/-! ## Histories -/

section History

variable {start : Engine} {calls past : List Call}

/-- Both maps have the last registration of every schema. -/
structure Coherent (start : Engine) (calls : List Call) : Prop where
  stride : ∀ s, (start.run calls).schemaMetadata.lookup s =
    Runs.lastFor (start.registered calls) s
  fields : ∀ s f, (start.run calls).registry.getField s f =
    (Runs.lastFor (start.registered calls) s).bind fun schema => fieldNamed schema.fields f

/-- A registration of a new name, or one with the fields that the name has. -/
def Repeats (e : Engine) : Call → Prop
  | .registerSchema s fields _ =>
      s ∈ e.registry.schemas → ∀ f, e.registry.getField s f = fieldNamed fields f
  | _ => True

theorem run_snoc (c : Call) : start.run (past ++ [c]) = (start.run past).step c :=
  Runs.run_append start past [c]

theorem registered_snoc (c : Call) : start.registered (past ++ [c]) =
    start.registered past ++ ((start.run past).registers c).toList :=
  Runs.emitted_snoc Engine.registers start past c

/-- What is found after a registration. -/
theorem getField_step_register (e : Engine) (s s' f : Name) (fields : List FieldDescriptor)
    (stride : ℕ) :
    (e.step (.registerSchema s fields stride)).registry.getField s' f =
      if s = s' ∧ s ∉ e.registry.schemas then fieldNamed fields f else e.registry.getField s' f :=
  SchemaRegistry.getField_registerSchema e.registry s s' f fields

/-- **One call**: coherence is kept by a call that repeats. -/
theorem Coherent.snoc (h : Coherent start past) {c : Call} (hc : Repeats (start.run past) c)
    (hstride : (start.run (past ++ [c])).schemaMetadata.lookup =
      Runs.lastFor (start.registered (past ++ [c]))) : Coherent start (past ++ [c]) := by
  refine ⟨fun s => congrFun hstride s, fun s f => ?_⟩
  rw [run_snoc, registered_snoc]
  cases c with
  | registerSchema s' fields stride =>
    rw [getField_step_register, Engine.registers, Option.toList_some, Runs.lastFor_snoc]
    by_cases hs : s' = s
    · subst hs
      rw [if_pos rfl, Option.bind_some]
      by_cases hmem : s' ∈ (start.run past).registry.schemas
      · rw [if_neg fun hnew => hnew.2 hmem]
        exact hc hmem f
      · rw [if_pos ⟨rfl, hmem⟩]
    · rw [if_neg fun hnew => hs hnew.1, if_neg hs]
      exact h.fields s f
  | setLogic s' f' T =>
    have hregistry : ((start.run past).step (.setLogic s' f' T)).registry =
      (start.run past).registry := Engine.registry_step _ _
    have hnone : (start.run past).registers (.setLogic s' f' T) = none := rfl
    rw [hregistry, hnone, Option.toList_none, List.append_nil]
    exact h.fields s f
  | setExpression s' heap g exprRoot mode st =>
    have hregistry : ((start.run past).step (.setExpression s' heap g exprRoot mode st)).registry =
      (start.run past).registry := Engine.registry_step _ _
    have hnone : (start.run past).registers (.setExpression s' heap g exprRoot mode st) = none := rfl
    rw [hregistry, hnone, Option.toList_none, List.append_nil]
    exact h.fields s f

end History

section Fresh

variable (slicer : Compute.BitSlicer) (buffers : ℕ → Compute.ColumnBuffer)

/-- **A history keeps its schemas coherent exactly when its registrations repeat**: each is
of a new name or has the fields of the name. -/
theorem coherent_iff (calls : List Call) :
    (∀ past, past <+: calls → Coherent (Engine.new slicer buffers) past) ↔
      Runs.Along Engine.step Repeats (Engine.new slicer buffers) calls := by
  constructor
  · intro h
    refine Runs.along_iff.mpr fun past c rest hcalls => ?_
    cases c with
    | registerSchema s fields stride =>
      intro hmem f
      have hcoherent := (h (past ++ [.registerSchema s fields stride])
        ⟨rest, by rw [hcalls]; simp⟩).fields s f
      rw [run_snoc, registered_snoc, getField_step_register, if_neg fun hnew => hnew.2 hmem,
        Engine.registers, Option.toList_some, Runs.lastFor_snoc, if_pos rfl] at hcoherent
      exact hcoherent
    | setLogic => trivial
    | setExpression => trivial
  · rintro h past ⟨rest, rfl⟩
    have hpast := (Runs.along_append.mp h).1
    clear h
    induction past using List.reverseRecOn with
    | nil => exact ⟨fun s => rfl, fun s f => rfl⟩
    | append_singleton past c ih =>
      obtain ⟨hbefore, hc, -⟩ := Runs.along_append.mp hpast
      exact (ih hbefore).snoc hc (funext fun s => Engine.schemaMetadata_of_history _ slicer buffers s)

end Fresh

/-! ## The C interface -/

section Passed

/-- Every field is found with the offset and the width it was passed with. -/
def FoundAsPassed (registry : SchemaRegistry) (s : Name) (fields : List CFieldDescriptor) : Prop :=
  ∀ d ∈ fields, ∀ name, d.name = some name → ∃ field, registry.getField s name = some field ∧
    field.offset.toNat = d.offset.toNat ∧ field.bitWidth.toNat = d.bitWidth.toNat

/-- The converted descriptor of a name. -/
theorem fieldNamed_mapM {fields : List CFieldDescriptor} {cppFields : List FieldDescriptor}
    (hnarrow : fields.mapM CFieldDescriptor.narrow = some cppFields)
    (hnodup : (fields.map CFieldDescriptor.name).Nodup) {d : CFieldDescriptor} (hd : d ∈ fields) :
    ∃ name field, d.name = some name ∧ d.narrow = some field ∧
      fieldNamed cppFields name = some field := by
  induction fields generalizing cppFields with
  | nil => exact absurd hd List.not_mem_nil
  | cons d' ds ih =>
    rw [List.mapM_cons] at hnarrow
    obtain ⟨field', hfield', hrest⟩ := Option.bind_eq_some_iff.mp hnarrow
    obtain ⟨cppRest, hcppRest, hcpp⟩ := Option.bind_eq_some_iff.mp hrest
    obtain rfl := Option.some.inj hcpp
    rw [List.map_cons, List.nodup_cons] at hnodup
    obtain ⟨name', hname', hfield⟩ := Option.map_eq_some_iff.mp hfield'
    have hfieldName : field'.name = name' := by rw [← hfield]
    rcases List.mem_cons.mp hd with rfl | hmem
    · refine ⟨name', field', hname', hfield', ?_⟩
      rw [fieldNamed, List.find?_cons, hfieldName, beq_self_eq_true]
    · obtain ⟨name, field, hname, hnarrow', hnamed⟩ := ih hcppRest hnodup.2 hmem
      have hne : (field'.name == name) = false := by
        refine beq_eq_false_iff_ne.mpr fun heq => hnodup.1 ?_
        rw [hname', ← hfieldName, heq, ← hname]
        exact List.mem_map_of_mem hmem
      refine ⟨name, field, hname, hnarrow', ?_⟩
      rw [fieldNamed, List.find?_cons, hne]
      exact hnamed

/-- A cast to 32 bits keeps what fits. -/
theorem toNat_setWidth_eq_iff (x : Word) : (x.setWidth 32).toNat = x.toNat ↔ x.toNat < 2 ^ 32 := by
  rw [BitVec.toNat_setWidth]
  omega

/-- **What is found after a registration through the C interface** that reports success. -/
theorem foundAsPassed_iff {e e' : Engine} {s : Name} {fields : List CFieldDescriptor} {stride : Word}
    (hcall : apexRegisterSchema (some e) (some s) (some fields) stride = (0, some e'))
    (hnodup : (fields.map CFieldDescriptor.name).Nodup) :
    FoundAsPassed e'.registry s fields ↔
      if s ∈ e.registry.schemas then FoundAsPassed e.registry s fields
      else ∀ d ∈ fields, d.offset.toNat < 2 ^ 32 ∧ d.bitWidth.toNat < 2 ^ 32 := by
  simp only [apexRegisterSchema] at hcall
  split at hcall
  · rename_i cppFields hnarrow
    obtain rfl := Option.some.inj (Prod.mk.inj hcall).2
    have hfind : ∀ name, (e.registerSchema s cppFields stride.toNat).registry.getField s name =
        if s = s ∧ s ∉ e.registry.schemas then fieldNamed cppFields name
        else e.registry.getField s name :=
      fun name => SchemaRegistry.getField_registerSchema e.registry s s name cppFields
    split
    · rename_i hmem
      have hsame : ∀ name, (e.registerSchema s cppFields stride.toNat).registry.getField s name =
          e.registry.getField s name := fun name => by rw [hfind, if_neg fun hnew => hnew.2 hmem]
      simp only [FoundAsPassed, hsame]
    · rename_i hmem
      refine forall₂_congr fun d hd => ?_
      obtain ⟨name, field, hname, hfield, hnamed⟩ := fieldNamed_mapM hnarrow hnodup hd
      rw [CFieldDescriptor.narrow, hname, Option.map_some] at hfield
      simp only [hname, Option.some.injEq, forall_eq', hfind, hmem, not_false_eq_true, and_self,
        if_true, hnamed, ← Option.some.inj hfield, exists_eq_left', toNat_setWidth_eq_iff]
  · exact absurd (Prod.mk.inj hcall).1 (by decide)

end Passed

/-- **Schema coherence.**  A history of calls keeps the fields and the stride of every
schema those of its last registration exactly when its registrations repeat; and what
`apex_register_schema` reports as registered is found as it was passed exactly when the
name is new and everything fits 32 bits, or the name was known with these fields. -/
theorem schema_coherence (slicer : Compute.BitSlicer) (buffers : ℕ → Compute.ColumnBuffer)
    (calls : List Call) :
    ((∀ past, past <+: calls → Coherent (Engine.new slicer buffers) past) ↔
      Runs.Along Engine.step Repeats (Engine.new slicer buffers) calls) ∧
    ∀ (e e' : Engine) (s : Name) (fields : List CFieldDescriptor) (stride : Word),
      apexRegisterSchema (some e) (some s) (some fields) stride = (0, some e') →
      (fields.map CFieldDescriptor.name).Nodup →
      (FoundAsPassed e'.registry s fields ↔
        if s ∈ e.registry.schemas then FoundAsPassed e.registry s fields
        else ∀ d ∈ fields, d.offset.toNat < 2 ^ 32 ∧ d.bitWidth.toNat < 2 ^ 32) :=
  ⟨coherent_iff slicer buffers calls, fun _ _ _ _ _ hcall hnodup => foundAsPassed_iff hcall hnodup⟩

/-- **A second registration** of a schema, with the field somewhere else: the stride is the
new one and the field is found where it was. -/
theorem schema_coherence_repeated : ¬ ((∀ (slicer : Compute.BitSlicer)
    (buffers : ℕ → Compute.ColumnBuffer) (calls past : List Call), past <+: calls →
      Coherent (Engine.new slicer buffers) past) ∧
    ∀ (e e' : Engine) (s : Name) (fields : List CFieldDescriptor) (stride : Word),
      apexRegisterSchema (some e) (some s) (some fields) stride = (0, some e') →
      (fields.map CFieldDescriptor.name).Nodup → FoundAsPassed e'.registry s fields) := by
  rintro ⟨h, -⟩
  have hfields := (h .portable (fun _ _ => 0) [.registerSchema [115] [sampleField] 8,
    .registerSchema [115] [{ sampleField with offset := 8 }] 16] _ List.prefix_rfl).fields [115] [97]
  exact absurd hfields (by decide)

end Api
end ApexEngine
