import ApexEngine.Compute.ParallelRunner
import ApexEngine.Jit.Comparison
import ApexEngine.Jit.Compiled

/-!
# `ApexEngine`

An engine keeps three maps by schema name: what is known of a schema, its threshold
logic and its expression logic.  Installing a logic writes one of the last two.
Executing takes the *first* entry of the expression map, in whatever order the map
iterates, and only when this map is empty the first entry of the threshold map; the
row stride is the one last registered under the entry's name.

`unordered_map` promises nothing about its order, so `execute` is given one
(`IterationOrder`), and what is proved about it is proved for all of them.  In the same
way each call of a kernel has a `Caller`: where its arrays lie and what the registers
contain that are not arguments.

A call that faults has no result.  `execute` therefore returns `none` exactly when a
kernel or a worker faults, and otherwise the engine with its buffers as they are left,
and the number of matches.
-/

namespace ApexEngine
namespace Api

open A64 (Word Item)
open Core (Name StringMap SchemaRegistry FieldDescriptor)
open Compute (BitSlicer ColumnBuffer Data Staging TaskConfig gatherField popcount prepare)
open Jit (ExecutionMode Caller Planes Scratch Graph NodeRef NodeMetas CompileState)

/-! ## The order of a map -/

/-- The order in which maps iterate, as far as `begin()` shows it: one of the keys there
are. -/
structure IterationOrder where
  first : List Name → Option Name
  first_mem : ∀ {keys k}, first keys = some k → k ∈ keys
  first_isSome : ∀ {keys}, keys ≠ [] → (first keys).isSome

namespace IterationOrder

variable {α : Type} (order : IterationOrder) (m : StringMap α)

/-- `*m.begin()`. -/
def front : Option (Name × α) :=
  (order.first m.keys).bind fun k => (m.lookup k).map fun v => (k, v)

theorem lookup_of_front {m : StringMap α} {k : Name} {v : α} (h : order.front m = some (k, v)) :
    m.lookup k = some v := by
  obtain ⟨k', -, hk⟩ := Option.bind_eq_some_iff.mp h
  obtain ⟨v', hv, heq⟩ := Option.map_eq_some_iff.mp hk
  obtain ⟨rfl, rfl⟩ := Prod.mk.inj heq
  exact hv

theorem front_eq_none_iff : order.front m = none ↔ m = ∅ := by
  constructor
  · intro h
    by_contra hne
    have hkeys : m.keys ≠ [] := fun hnil =>
      hne (AList.ext (List.map_eq_nil_iff.mp hnil))
    obtain ⟨k, hk⟩ := Option.isSome_iff_exists.mp (order.first_isSome hkeys)
    obtain ⟨v, hv⟩ := Option.isSome_iff_exists.mp
      (AList.lookup_isSome.mpr (AList.mem_keys.mp (order.first_mem hk)))
    rw [front, hk, Option.bind_some, hv] at h
    exact absurd h (by simp)
  · rintro rfl
    cases h : order.first (∅ : StringMap α).keys with
    | none => rw [front, h, Option.bind_none]
    | some k => exact absurd (order.first_mem h) (by simp)

/-- The only entry is the first. -/
theorem front_eq_of_keys {m : StringMap α} {k : Name} {v : α} (hv : m.lookup k = some v)
    (honly : ∀ k' ∈ m, k' = k) : order.front m = some (k, v) := by
  have hne : m ≠ ∅ := by
    rintro rfl
    exact absurd hv (by simp)
  cases h : order.front m with
  | none => exact absurd ((order.front_eq_none_iff m).mp h) hne
  | some p =>
    obtain ⟨k', v'⟩ := p
    have hv' := order.lookup_of_front h
    obtain rfl := honly k' (AList.lookup_isSome.mp (by rw [hv']; rfl))
    rw [hv] at hv'
    rw [Option.some.inj hv']

/-- An entry put where there is no other. -/
theorem front_insert {m : StringMap α} {k : Name} (v : α) (honly : ∀ k' ∈ m, k' = k) :
    order.front (m.insert k v) = some (k, v) :=
  order.front_eq_of_keys (AList.lookup_insert m) fun k' hk' =>
    ((AList.mem_insert m).mp hk').elim id (honly k')

/-- The entry that was assigned last, as an implementation that prepends has it. -/
def latest : IterationOrder where
  first := List.head?
  first_mem h := List.mem_of_mem_head? h
  first_isSome h := List.isSome_head?.mpr h

end IterationOrder

/-! ## The state -/

/-- `ApexEngine::SchemaMetadata`. -/
structure SchemaMetadata where
  rowStride : ℕ
  fields : List FieldDescriptor

/-- `ApexEngine::CompiledLogic`. -/
structure CompiledLogic where
  field : FieldDescriptor
  kernel : List Item

/-- `ApexEngine::ExprCompiledLogic`.  Its kernel is not null: `set_expression` returns
before it installs one. -/
structure ExprCompiledLogic where
  kernel : List Item
  fields : List (Option FieldDescriptor)
  mode : ExecutionMode

/-- `ApexEngine`.  The plane array is a local of the chunk that fills it. -/
structure Engine where
  registry : SchemaRegistry
  schemaMetadata : StringMap SchemaMetadata
  compiledLogic : StringMap CompiledLogic
  exprLogic : StringMap ExprCompiledLogic
  slicer : BitSlicer
  fieldBuffers : ℕ → ColumnBuffer

/-- `ApexEngine::ApexEngine`. -/
def Engine.new (slicer : BitSlicer) (fieldBuffers : ℕ → ColumnBuffer) : Engine :=
  ⟨.empty, ∅, ∅, ∅, slicer, fieldBuffers⟩

/-! ## Configuration -/

section Configure

variable (e : Engine) (schemaName : Name)

/-- `ApexEngine::register_schema`. -/
def Engine.registerSchema (fields : List FieldDescriptor) (totalRowStride : ℕ) : Engine :=
  { e with
    registry := e.registry.registerSchema schemaName fields
    schemaMetadata := e.schemaMetadata.insert schemaName ⟨totalRowStride, fields⟩ }

/-- `ApexEngine::set_logic`. -/
def Engine.setLogic (fieldName : Name) (threshold : Word) : Engine :=
  match e.registry.getField schemaName fieldName with
  | none => e
  | some field =>
      { e with
        compiledLogic :=
          e.compiledLogic.insert schemaName ⟨field, Jit.compileComparison threshold⟩ }

/-- The descriptors of the field slots. -/
abbrev Slots := List (Option FieldDescriptor)

/-- The eight slots before the descriptors are collected. -/
def noSlots : Slots := List.replicate 8 none

/-- What `collect_fields` does at a node itself. -/
def bindNode (registry : SchemaRegistry) (g : Graph) (ms : NodeMetas) (n : NodeRef)
    (fields : Slots) : Slots :=
  if g.kind n = .load ∧ 0 ≤ (ms n).fieldIdx ∧ (ms n).fieldIdx < 8 then
    match registry.getField schemaName (g.node n).fieldName with
    | some field => fields.set (ms n).fieldIdx.toNat (some field)
    | none => fields
  else fields

/-- The lambda `collect_fields`.  It visits a shared node once for every path to it, and
the condition of a node only when the node is a selection. -/
def collectFields (registry : SchemaRegistry) (g : Graph) (ms : NodeMetas) :
    NodeRef → Slots → Slots :=
  g.fold fun n left right cond fields =>
    let fields := bindNode schemaName registry g ms n fields
    let fields := left.getD id fields
    let fields := right.getD id fields
    if g.kind n = .select then cond.getD id fields else fields

/-- Drop the trailing nulls. -/
def trim (fields : Slots) : Slots :=
  fields.take (Loop.forUp 0 8 1
    (fun i maxIdx => if (fields.getD i none).isSome then i + 1 else maxIdx) 0)

/-- `ApexEngine::set_expression`. -/
def Engine.setExpression (heap : ℕ → Word) (g : Graph) (exprRoot : Option NodeRef)
    (mode : ExecutionMode) (st : CompileState) : Engine × CompileState :=
  match Jit.compile mode heap g exprRoot st with
  | (none, st) => (e, st)
  | (some kernel, st) =>
      let fields := match exprRoot with
        | none => noSlots
        | some root => collectFields schemaName e.registry g st.metas root noSlots
      ({ e with exprLogic := e.exprLogic.insert schemaName ⟨kernel, trim fields, mode⟩ }, st)

end Configure

/-! ## Execution -/

section Execute

variable (e : Engine) (callers : ℕ → Caller) (data : Data)

/-- One iteration of the field loop of `process_chunk_expr`: a null slot is skipped. -/
def chunkField (logic : ExprCompiledLogic) (ptr rowStride rowCount i : ℕ) (s : Staging) :
    Staging :=
  match logic.fields.getD i none with
  | some field =>
      s.loadColumn e.slicer logic.mode i
        (gatherField data ptr field rowStride rowCount (s.fieldBuffers i))
  | none => { s with fieldPlanes := Function.update s.fieldPlanes i none }

/-- `ApexEngine::process_chunk_expr`, at the pointer `data + ptr`. -/
def Engine.processChunkExpr (caller : Caller) (ptr rowStride rowCount : ℕ)
    (logic : ExprCompiledLogic) (scratchpad : Scratch) : Option (Engine × Word) :=
  let staging := Loop.forUp 0 (min logic.fields.length 8) 1
    (chunkField e data logic ptr rowStride rowCount) ⟨e.fieldBuffers, fun _ => none⟩
  (caller.callExpr logic.kernel staging.fieldPlanes scratchpad).map fun r =>
    ({ e with fieldBuffers := staging.fieldBuffers }, r.1)

/-- One chunk of the expression path, at row `row`.  The scratchpad is cleared. -/
def Engine.exprChunk (logic : ExprCompiledLogic) (rowStride rowCount row : ℕ) (e : Engine) :
    Option (Engine × ℕ) :=
  (e.processChunkExpr data (callers row) (row * rowStride) rowStride (min 64 (rowCount - row))
    logic fun _ => 0).map fun r => (r.1, popcount r.2)

/-- One chunk of the threshold path. -/
def Engine.legacyChunk (logic : CompiledLogic) (rowStride rowCount row : ℕ) (e : Engine) :
    Option (Engine × ℕ) :=
  let gathered := gatherField data (row * rowStride) logic.field rowStride
    (min 64 (rowCount - row)) (e.fieldBuffers 0)
  let sliced := e.slicer.slice gathered
  ((callers row).callThreshold logic.kernel sliced).map fun mask =>
    ({ e with fieldBuffers := Function.update e.fieldBuffers 0 sliced }, popcount mask)

/-- The chunk loop over a logic's chunks. -/
def Engine.scan (chunk : ℕ → Engine → Option (Engine × ℕ)) (rowCount : ℕ) : Option (Engine × ℕ) :=
  Loop.forUp 0 rowCount 64 (Loop.accumulate chunk) (some (e, 0))

/-- `ApexEngine::execute`.  What it finds missing makes it return zero. -/
def Engine.execute (order : IterationOrder) (rowCount : ℕ) : Option (Engine × ℕ) :=
  match order.front e.exprLogic with
  | some (schemaName, logic) =>
      match e.schemaMetadata.lookup schemaName with
      | none => some (e, 0)
      | some schema =>
          e.scan (Engine.exprChunk callers data logic schema.rowStride rowCount) rowCount
  | none =>
      match order.front e.compiledLogic with
      | none => some (e, 0)
      | some (logicKey, logic) =>
          match e.schemaMetadata.lookup logicKey with
          | none => some (e, 0)
          | some schema =>
              e.scan (Engine.legacyChunk callers data logic schema.rowStride rowCount) rowCount

/-- `ApexEngine::execute_parallel`.  What the workers have in their buffers, and how
their calls enter the kernel, is given by the row a worker starts at. -/
def Engine.executeParallel (workers : ℕ → ℕ → Caller) (slicer : BitSlicer)
    (fieldBuffers : ℕ → ℕ → ColumnBuffer) (order : IterationOrder) (rowCount : ℕ)
    (numThreads : ℤ) : Option (Engine × ℕ) :=
  match order.front e.exprLogic with
  | none => e.execute callers data order rowCount
  | some (schemaName, logic) =>
      match e.schemaMetadata.lookup schemaName with
      | none => some (e, 0)
      | some schema =>
          (Compute.run workers slicer fieldBuffers data rowCount
            ⟨logic.kernel, logic.fields, schema.rowStride, logic.mode⟩ numThreads).map
            fun total => (e, total)

/-- The number `execute` returns. -/
def Engine.count (order : IterationOrder) (rowCount : ℕ) : Option ℕ :=
  (e.execute callers data order rowCount).map Prod.snd

/-- The number `execute_parallel` returns. -/
def Engine.countParallel (workers : ℕ → ℕ → Caller) (slicer : BitSlicer)
    (fieldBuffers : ℕ → ℕ → ColumnBuffer) (order : IterationOrder) (rowCount : ℕ)
    (numThreads : ℤ) : Option ℕ :=
  (e.executeParallel callers data workers slicer fieldBuffers order rowCount numThreads).map Prod.snd

end Execute

end Api
end ApexEngine
