import ApexEngine.Api.History

/-!
# The C interface

The entry points check their pointers, convert what they are given and call the engine.
A pointer that may be null is an option, and an exception, which every entry point turns
into the value -1, is what a null field name gives.

A field descriptor of the interface has its offset and its width in 64 bits and the
engine's has them in 32; the conversion is a cast (`CFieldDescriptor.narrow`), so what is
too large is cut off without notice.

`apex_set_logic` calls a function that returns nothing and returns zero after it.  That
function installs a kernel when it gets one, and it gets one when the compiler accepts the
expression and the runtime has memory for the code; otherwise it leaves the engine as it
was (`apexSetLogic_refused`), and the zero is a false report.  So the report is true
exactly when a pointer is null or there is a kernel (`reportsTruth_iff`).
-/

namespace ApexEngine
namespace Api

open A64 (Word)
open Core (Name FieldDescriptor)
open Jit (ExecutionMode Graph NodeRef CompileState)

/-- `apex_field_descriptor_t`.  A name is null or the bytes before its zero byte. -/
structure CFieldDescriptor where
  name : Option Name
  offset : Word
  bitWidth : Word
  dataType : BitVec 32

/-- The descriptor of the engine: offset, width and type are cast to narrower types. -/
def CFieldDescriptor.narrow (d : CFieldDescriptor) : Option FieldDescriptor :=
  d.name.map fun name =>
    ⟨name, d.offset.setWidth 32, d.bitWidth.setWidth 32, ⟨UInt8.ofBitVec (d.dataType.setWidth 8)⟩⟩

/-- `apex_register_schema`. -/
def apexRegisterSchema (handle : Option Engine) (schemaName : Option Name)
    (fields : Option (List CFieldDescriptor)) (stride : Word) : ℤ × Option Engine :=
  match handle, schemaName, fields with
  | some engine, some schemaName, some fields =>
      match fields.mapM CFieldDescriptor.narrow with
      | some cppFields => (0, some (engine.registerSchema schemaName cppFields stride.toNat))
      | none => (-1, some engine)
  | handle, _, _ => (-1, handle)

/-- `exec_mode`: everything but `APEX_EXEC_MODE_SCALAR` is bit-sliced. -/
def execMode (mode : ℤ) : ExecutionMode := if mode = 1 then .scalar else .bitSliced

/-- The kernel `set_expression` gets from the compilers.  Whether `JitRuntime::add` has
memory for the code is `added`; without it there is none. -/
def kernelFor (added : Bool) (mode : ExecutionMode) (heap : ℕ → Word) (g : Graph)
    (root : Option NodeRef) (st : CompileState) : Option (List A64.Item) :=
  if added then (Jit.compile mode heap g root st).1 else none

/-- `apex_set_logic`.  A compilation whose code the runtime does not take has done
everything else, and `set_expression` returns. -/
def apexSetLogic (handle : Option Engine) (schemaName : Option Name) (heap : ℕ → Word) (g : Graph)
    (irRoot : Option NodeRef) (mode : ℤ) (st : CompileState) (added : Bool) :
    ℤ × Option Engine × CompileState :=
  match handle, schemaName, irRoot with
  | some engine, some schemaName, some root =>
      let r := engine.setExpression schemaName heap g (some root) (execMode mode) st
      (0, some (if added then r.1 else engine), r.2)
  | handle, _, _ => (-1, handle, st)

/-! ## What `apex_set_logic` reports -/

/-- The logic of a schema is a kernel, in a mode. -/
def LogicIs (engine : Option Engine) (schemaName : Option Name) (kernel : Option (List A64.Item))
    (mode : ExecutionMode) : Prop :=
  ∃ e ∈ engine, ∃ name ∈ schemaName, ∃ code ∈ kernel, ∃ logic,
    e.exprLogic.lookup name = some logic ∧ logic.kernel = code ∧ logic.mode = mode

section Report

variable (handle : Option Engine) (schemaName : Option Name) (heap : ℕ → Word) (g : Graph)
  (irRoot : Option NodeRef) (mode : ℤ) (st : CompileState) (added : Bool)

/-- The report is true: zero is returned exactly when the logic of the schema is now the
kernel of this expression, and without a kernel something else, with the engine as it
was. -/
def ReportsTruth : Prop :=
  let kernel := kernelFor added (execMode mode) heap g irRoot st
  let result := apexSetLogic handle schemaName heap g irRoot mode st added
  (result.1 = 0 ↔ LogicIs result.2.1 schemaName kernel (execMode mode)) ∧
    (kernel = none → result.1 ≠ 0 ∧ result.2.1 = handle)

variable {handle schemaName heap g irRoot mode st added}

/-- **Without a kernel nothing changes.** -/
theorem apexSetLogic_refused
    (h : kernelFor added (execMode mode) heap g irRoot st = none) :
    (apexSetLogic handle schemaName heap g irRoot mode st added).2.1 = handle := by
  cases handle with
  | none => rfl
  | some engine =>
    cases schemaName with
    | none => rfl
    | some name =>
      cases irRoot with
      | none => rfl
      | some root =>
        cases added with
        | false => rfl
        | true =>
          have hnone : (Jit.compile (execMode mode) heap g (some root) st).1 = none := h
          obtain ⟨st', hcompile⟩ : ∃ st', Jit.compile (execMode mode) heap g (some root) st =
              (none, st') := ⟨_, Prod.ext hnone rfl⟩
          simp only [apexSetLogic, setExpression_none engine name hcompile, if_true]

/-- What a call with a kernel leaves. -/
theorem logicIs_of_kernel {engine : Engine} {name : Name} {root : NodeRef} {code : List A64.Item}
    (h : kernelFor added (execMode mode) heap g (some root) st = some code) :
    LogicIs (apexSetLogic (some engine) (some name) heap g (some root) mode st added).2.1 (some name)
      (some code) (execMode mode) := by
  cases added with
  | false => exact absurd h (by simp [kernelFor])
  | true =>
    have hsome : (Jit.compile (execMode mode) heap g (some root) st).1 = some code := h
    obtain ⟨st', hcompile⟩ : ∃ st', Jit.compile (execMode mode) heap g (some root) st =
        (some code, st') := ⟨_, Prod.ext hsome rfl⟩
    have hset := setExpression_some engine name hcompile
    refine ⟨_, rfl, name, rfl, code, rfl, ⟨code, slotsOf name engine.registry g st'.metas root,
      execMode mode⟩, ?_, rfl, rfl⟩
    simp only [if_true, hset]
    exact AList.lookup_insert _

/-- `set_expression` gets a kernel exactly when the compiler makes one and the runtime takes it. -/
theorem kernelFor_eq_none_iff {root : NodeRef} :
    kernelFor added (execMode mode) heap g (some root) st = none ↔
      ¬ (added = true ∧ Jit.Accepts g (execMode mode) root) := by
  rw [← Jit.compile_isSome_iff (execMode mode) heap g root st]
  cases added with
  | false => simp [kernelFor]
  | true => simp [kernelFor]

/-- A null pointer is reported. -/
theorem reportsTruth_of_null (h : handle = none ∨ schemaName = none ∨ irRoot = none) :
    ReportsTruth handle schemaName heap g irRoot mode st added := by
  have hresult : apexSetLogic handle schemaName heap g irRoot mode st added = (-1, handle, st) := by
    rcases h with rfl | rfl | rfl
    · rfl
    · cases handle <;> rfl
    · cases handle <;> cases schemaName <;> rfl
  have hkernel : irRoot = none → kernelFor added (execMode mode) heap g irRoot st = none := by
    rintro rfl
    unfold kernelFor Jit.compile
    split
    · split <;> rfl
    · rfl
  have hne : (-1 : ℤ) ≠ 0 := by decide
  unfold ReportsTruth
  rw [hresult]
  refine ⟨iff_of_false hne ?_, fun _ => ⟨hne, rfl⟩⟩
  rintro ⟨e, he, name, hname, code, hcode, -⟩
  rcases h with rfl | rfl | rfl
  · exact absurd he (by simp)
  · exact absurd hname (by simp)
  · rw [hkernel rfl] at hcode
    exact absurd hcode (by simp)

end Report

/-- **The report is true exactly when a pointer is null or there is a kernel**: when the
compiler of the mode accepts the expression and the runtime has memory for its code. -/
theorem reportsTruth_iff (handle : Option Engine) (schemaName : Option Name) (heap : ℕ → Word)
    (g : Graph) (irRoot : Option NodeRef) (mode : ℤ) (st : CompileState) (added : Bool) :
    ReportsTruth handle schemaName heap g irRoot mode st added ↔
      (handle = none ∨ schemaName = none ∨ irRoot = none) ∨
        added = true ∧ ∀ root ∈ irRoot, Jit.Accepts g (execMode mode) root := by
  by_cases hnull : handle = none ∨ schemaName = none ∨ irRoot = none
  · exact iff_of_true (reportsTruth_of_null hnull) (Or.inl hnull)
  · obtain ⟨hhandle, hname, hroot⟩ : handle ≠ none ∧ schemaName ≠ none ∧ irRoot ≠ none := by
      simpa only [not_or] using hnull
    obtain ⟨engine, rfl⟩ := Option.ne_none_iff_exists'.mp hhandle
    obtain ⟨name, rfl⟩ := Option.ne_none_iff_exists'.mp hname
    obtain ⟨root, rfl⟩ := Option.ne_none_iff_exists'.mp hroot
    rw [or_iff_right hnull]
    have hzero : (apexSetLogic (some engine) (some name) heap g (some root) mode st added).1 = 0 :=
      rfl
    constructor
    · rintro ⟨-, hrefused⟩
      by_contra hnot
      have hnone : kernelFor added (execMode mode) heap g (some root) st = none :=
        kernelFor_eq_none_iff.mpr fun h => hnot ⟨h.1, fun r hr => by
          obtain rfl := Option.some.inj hr
          exact h.2⟩
      exact (hrefused hnone).1 hzero
    · rintro ⟨hadded, haccepts⟩
      cases hkernel : kernelFor added (execMode mode) heap g (some root) st with
      | none => exact absurd ⟨hadded, haccepts root rfl⟩ (kernelFor_eq_none_iff.mp hkernel)
      | some code =>
        simp only [ReportsTruth, hkernel]
        exact ⟨iff_of_true hzero (logicIs_of_kernel hkernel), fun h => absurd h (by simp)⟩

/-- **A refusal that is reported as a success**: the bit-sliced compiler has eight slots
for the results of additions, and the expression has nine. -/
theorem reportsTruth_nine_additions : ¬ ∀ (handle : Option Engine) (schemaName : Option Name)
    (heap : ℕ → Word) (g : Graph) (irRoot : Option NodeRef) (mode : ℤ) (st : CompileState)
    (added : Bool), ReportsTruth handle schemaName heap g irRoot mode st added := by
  intro h
  have hreport := h (some sampleEngine) (some [115]) Jit.standardHeap (Jit.sumsGraph [97] 9)
    (some 10) 0 sampleState true
  have hnone : kernelFor true (execMode 0) Jit.standardHeap (Jit.sumsGraph [97] 9) (some 10)
      sampleState = none := by
    rw [kernelFor_eq_none_iff]
    rintro ⟨-, haccepts⟩
    have harith := (haccepts rfl).2
    exact absurd harith (by decide)
  exact (hreport.2 hnone).1 rfl

end Api
end ApexEngine
