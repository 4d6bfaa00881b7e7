import ApexEngine.Api.RowCount

/-!
# Threshold queries

`set_logic(schema, f, T)` installs a kernel that is unrolled for the bits of `T`, and
executing it counts the rows whose word at the offset of `f` exceeds `T`; the rows a
last block is padded with never do (`execute_counts_above`).

The expression `GT(Load(f), Const(T))` asks the same of the general compilers.  Built first
of all in a pool, as the nodes 0, 1 and 2, it decides the same rows (`installed_threshold`).
-/

namespace ApexEngine
namespace Api

open A64 (Word)
open Core (Name SchemaRegistry FieldDescriptor)
open Compute (BitSlicer ColumnBuffer Data behind blockColumn memcpy8 memcpy8_congr popcount)
open Jit (ExecutionMode Caller CompileState StringView thresholdGraph)

/-! ## The threshold kernel -/

/-- The mask of the threshold kernel. -/
theorem callThreshold_lanes (caller : Caller) (T : Word) {planes : ℕ → Word} {column : ℕ → Word}
    (h : Jit.ShowsColumn .bitSliced planes column) :
    ∃ m, caller.callThreshold (Jit.compileComparison T) planes = some m ∧
      ∀ r < 64, m.getLsbD r = decide (T < column r) :=
  ⟨_, Jit.callThreshold_compileComparison caller planes T, fun r hr =>
    BitPlane.run_gt hr (h r hr) (BitPlane.shows_broadcast T hr)⟩

/-- A row whose field exceeds a threshold. -/
def exceeds (T : Word) (field : FieldDescriptor) (bytes : Data) : Bool :=
  decide (T < memcpy8 bytes field.offset.toNat)

/-- Zeros exceed nothing. -/
theorem exceeds_zero (T : Word) (field : FieldDescriptor) :
    exceeds T field (fun _ => 0) = false := by
  rw [exceeds, Compute.memcpy8_zero fun _ _ => rfl]
  exact decide_eq_false BitVec.not_lt_zero

/-- Nothing exceeds the greatest word. -/
theorem exceeds_allOnes (field : FieldDescriptor) (data : Data) :
    exceeds (BitVec.allOnes 64) field data = false :=
  decide_eq_false (BitVec.not_allOnes_lt)

theorem exceeds_datasetRow (T : Word) (field : FieldDescriptor) (data : Data) (rowStride i : ℕ) :
    exceeds T field (datasetRow data rowStride i) =
      decide (T < memcpy8 data (i * rowStride + field.offset.toNat)) := by
  have hword : memcpy8 (datasetRow data rowStride i) field.offset.toNat =
      memcpy8 data (i * rowStride + field.offset.toNat) :=
    memcpy8_congr fun k _ => by rw [datasetRow, Nat.add_assoc]
  rw [exceeds, hword]

section Legacy

variable {callers : ℕ → Caller} {order : IterationOrder} {e : Engine} {name : Name}
  {field : FieldDescriptor} {T : Word} {schema : SchemaMetadata}

/-- **A scan for a threshold.** -/
theorem scan_threshold (callers : ℕ → Caller) (e : Engine) (field : FieldDescriptor) (T : Word)
    (data : Data) (rowStride n : ℕ) :
    ∃ buffers, e.scan (Engine.legacyChunk callers data ⟨field, Jit.compileComparison T⟩ rowStride n)
        n = some ({ e with fieldBuffers := buffers },
          (List.range n).countP fun i => exceeds T field (datasetRow data rowStride i)) := by
  have hcall : ∀ c, c * 64 < n → ∀ planes : ℕ → Word,
      Jit.ShowsColumn .bitSliced planes (blockColumn data (c * 64 * rowStride) rowStride
        (min 64 (n - c * 64)) field) →
      ∃ m, (callers (c * 64)).callThreshold (Jit.compileComparison T) planes = some m ∧
        popcount m = blockCount (exceeds T field) data rowStride n (c * 64) := by
    intro c _ planes hplanes
    obtain ⟨m, hm, hlanes⟩ := callThreshold_lanes (callers (c * 64)) T hplanes
    refine ⟨m, hm, popcount_eq fun r hr => ?_⟩
    rw [hlanes r hr, Compute.blockColumn_eq, exceeds]
  let logic : CompiledLogic := ⟨field, Jit.compileComparison T⟩
  obtain ⟨buffers, hscan⟩ := @scan_legacyChunk callers data e n logic _ _ hcall
  refine ⟨buffers, ?_⟩
  rw [hscan, blockSum_blockCount, exceeds_zero]
  rfl

/-- **What `execute` returns** when a threshold is all there is. -/
theorem count_of_threshold (hexpr : e.exprLogic = ∅)
    (hfront : order.front e.compiledLogic = some (name, ⟨field, Jit.compileComparison T⟩))
    (hschema : e.schemaMetadata.lookup name = some schema) (data : Data) (n : ℕ) :
    e.count callers data order n =
      some ((List.range n).countP fun i => exceeds T field (datasetRow data schema.rowStride i)) := by
  obtain ⟨buffers, hscan⟩ := scan_threshold callers e field T data schema.rowStride n
  have hnone : order.front e.exprLogic = none := (order.front_eq_none_iff _).mpr hexpr
  have hexec : e.execute callers data order n =
      e.scan (Engine.legacyChunk callers data ⟨field, Jit.compileComparison T⟩
        schema.rowStride n) n := by
    simp only [Engine.execute, hnone, hfront, hschema]
  rw [Engine.count, hexec, hscan, Option.map_some]

end Legacy

/-! ## Engines with nothing installed -/

/-- Schemas are registered, `s` is one of them, and no logic is installed. -/
structure Configured (e : Engine) (s : Name) (schema : SchemaMetadata) : Prop where
  exprLogic : e.exprLogic = ∅
  compiledLogic : e.compiledLogic = ∅
  schema : e.schemaMetadata.lookup s = some schema

section Configured

variable {e : Engine} {s f : Name} {schema : SchemaMetadata} {field : FieldDescriptor} {T : Word}

/-- `set_logic` installs a comparison for a field that is registered. -/
theorem setLogic_some (hfield : e.registry.getField s f = some field) :
    e.setLogic s f T =
      { e with compiledLogic := e.compiledLogic.insert s ⟨field, Jit.compileComparison T⟩ } := by
  rw [Engine.setLogic, hfield]

/-- A fresh engine on which a schema is registered. -/
theorem configured_new (slicer : BitSlicer) (buffers : ℕ → ColumnBuffer) (s : Name)
    (fields : List FieldDescriptor) (stride : ℕ) :
    Configured ((Engine.new slicer buffers).registerSchema s fields stride) s ⟨stride, fields⟩ where
  exprLogic := rfl
  compiledLogic := rfl
  schema := AList.lookup_insert _

theorem getField_new (slicer : BitSlicer) (buffers : ℕ → ColumnBuffer) (s f : Name)
    (fields : List FieldDescriptor) (stride : ℕ) :
    ((Engine.new slicer buffers).registerSchema s fields stride).registry.getField s f =
      fields.find? fun d => d.name == f := by
  rw [Engine.registerSchema, SchemaRegistry.getField_registerSchema]
  exact if_pos ⟨rfl, AList.notMem_empty s⟩

/-- The threshold that is installed is the only one. -/
theorem front_setLogic (he : Configured e s schema) (hfield : e.registry.getField s f = some field)
    (order : IterationOrder) : order.front (e.setLogic s f T).compiledLogic =
      some (s, ⟨field, Jit.compileComparison T⟩) := by
  rw [setLogic_some hfield]
  refine order.front_insert _ fun k hk => ?_
  rw [he.compiledLogic] at hk
  exact absurd hk (AList.notMem_empty k)

/-- A threshold that is installed is scanned for. -/
theorem Configured.scans_setLogic (he : Configured e s schema)
    (hfield : e.registry.getField s f = some field) (order : IterationOrder) :
    (e.setLogic s f T).Scans order := by
  have hset := setLogic_some (T := T) hfield
  have hexpr : (e.setLogic s f T).exprLogic = ∅ := by
    rw [hset]
    exact he.exprLogic
  have hschema : (e.setLogic s f T).schemaMetadata.lookup s = some schema := by
    rw [hset]
    exact he.schema
  exact Engine.scans_of_threshold hexpr (front_setLogic he hfield order) hschema

/-- The first expression that is installed is the only one. -/
theorem Configured.front_insert (he : Configured e s schema) (logic : ExprCompiledLogic)
    (order : IterationOrder) : order.front (e.exprLogic.insert s logic) = some (s, logic) := by
  refine order.front_insert logic fun k hk => ?_
  rw [he.exprLogic] at hk
  exact absurd hk (AList.notMem_empty k)

/-- So it is the one that is executed. -/
theorem Configured.count_insert (he : Configured e s schema) {callers : ℕ → Caller}
    {logic : ExprCompiledLogic} {P : Data → Bool} (hdecides : Decides callers logic P)
    (order : IterationOrder) (data : Data) (n : ℕ) :
    Engine.count { e with exprLogic := e.exprLogic.insert s logic } callers data order n =
      some ((List.range n).countP (fun i => P (datasetRow data schema.rowStride i)) +
        if P fun _ => 0 then Blocks.count 64 n * 64 - n else 0) :=
  count_eq (e := { e with exprLogic := e.exprLogic.insert s logic })
    (he.front_insert logic order) he.schema hdecides data n

/-- The rows are scanned for an expression that is installed. -/
theorem Configured.scans_insert (he : Configured e s schema) (logic : ExprCompiledLogic)
    (order : IterationOrder) :
    Engine.Scans { e with exprLogic := e.exprLogic.insert s logic } order :=
  Engine.scans_of_expr (he.front_insert logic order) he.schema

/-- Executing a threshold counts the rows that exceed it. -/
theorem count_setLogic (he : Configured e s schema) (hfield : e.registry.getField s f = some field)
    (callers : ℕ → Caller) (order : IterationOrder) (data : Data) (n : ℕ) :
    (e.setLogic s f T).count callers data order n =
      some ((List.range n).countP fun i => exceeds T field (datasetRow data schema.rowStride i)) := by
  refine count_of_threshold ?_ (front_setLogic he hfield order) ?_ data n
  · rw [setLogic_some hfield]
    exact he.exprLogic
  · rw [setLogic_some hfield]
    exact he.schema

end Configured

/-- **A threshold query, end to end**: `execute` returns the number of rows whose word at
the field's offset is greater than the threshold. -/
theorem execute_counts_above {fields : List FieldDescriptor} {f : Name} {field : FieldDescriptor}
    (hfield : (fields.find? fun d => d.name == f) = some field)
    (callers : ℕ → Caller) (order : IterationOrder) (slicer : BitSlicer)
    (buffers : ℕ → ColumnBuffer) (s : Name) (stride : ℕ) (T : Word) (data : Data) (n : ℕ) :
    (((Engine.new slicer buffers).registerSchema s fields stride).setLogic s f T).count callers
        data order n =
      some ((List.range n).countP fun i =>
        decide (T < memcpy8 data (i * stride + field.offset.toNat))) := by
  simp only [← exceeds_datasetRow]
  exact count_setLogic (configured_new slicer buffers s fields stride)
    ((getField_new ..).trans hfield) callers order data n

/-- Three rows of sevens exceed five. -/
theorem execute_counts_above_sevens :
    (((Engine.new .portable fun _ _ => 0).registerSchema [115] [sampleField] 8).setLogic [115] [97]
      5).count (fun _ => Caller.standard [] (by decide)) (fun _ => 7) .latest 3 = some 3 := by
  have hfield : ([sampleField].find? fun d => d.name == [97]) = some sampleField := rfl
  rw [execute_counts_above hfield]
  decide

/-- **A threshold query over words** is counted up to `2 ^ 64 - 64` rows; beyond them `execute` does
not return. -/
theorem executeWord_counts_above {fields : List FieldDescriptor} {f : Name}
    {field : FieldDescriptor} (hfield : (fields.find? fun d => d.name == f) = some field)
    (callers : ℕ → Caller) (order : IterationOrder) (slicer : BitSlicer)
    (buffers : ℕ → ColumnBuffer) (s : Name) (stride : ℕ) (T : Word) (space : Word → UInt8)
    (base rowCount total : Word) :
    (((Engine.new slicer buffers).registerSchema s fields stride).setLogic s f T).CountsWord callers
        space base order rowCount total ↔
      rowCount.toNat ≤ 2 ^ 64 - 64 ∧ total = BitVec.ofNat 64 ((List.range rowCount.toNat).countP
        fun i => decide (T < memcpy8 (behind space base) (i * stride + field.offset.toNat))) := by
  have he := configured_new slicer buffers s fields stride
  have hget := (getField_new slicer buffers s f fields stride).trans hfield
  have hcount := @count_setLogic _ s f _ field T he hget callers order (behind space base)
    rowCount.toNat
  simp only [exceeds_datasetRow] at hcount
  exact Engine.countsWord_iff_of_count (he.scans_setLogic hget order) hcount

/-! ## The expression compilers on the same query -/

section Expression

variable {e : Engine} {s : Name} {v : StringView} {field' : FieldDescriptor} {T : Word}
  {heap : ℕ → Word} {st : CompileState} {callers : ℕ → Caller}

/-- Either compiler has a kernel for `GT(Load(v), Const(T))`. -/
theorem compile_threshold (mode : ExecutionMode) (heap : ℕ → Word) (v : StringView) (T : Word)
    (st : CompileState) :
    ∃ code st', Jit.compile mode heap (thresholdGraph v T) (some 2) st = (some code, st') := by
  cases mode with
  | bitSliced =>
    obtain ⟨konst, pool, h, -⟩ := Jit.compileExpression_ok heap (thresholdGraph v T) 2 st
      (by simp [Jit.fieldNames_threshold]) (by simp [Jit.arithmeticNodes_threshold])
    exact ⟨_, _, h⟩
  | scalar => exact ⟨_, _, Jit.compile_scalar heap (thresholdGraph v T) 2 st⟩

/-- **The logic of an expression whose field is found** decides what the threshold does,
at the offset of that field. -/
theorem installed_threshold (mode : ExecutionMode)
    (hpool : ∀ row, (Jit.compile mode heap (thresholdGraph v T) (some 2) st).2.pool ⊆
      (callers row).pool)
    (hfield : e.registry.getField s (Jit.storedName v) = some field') :
    ∃ logic, (e.setExpression s heap (thresholdGraph v T) (some 2) mode st).1.exprLogic.lookup s =
        some logic ∧ logic.mode = mode ∧ Decides callers logic (exceeds T field') := by
  obtain ⟨code, st', hcompile⟩ := compile_threshold mode heap v T st
  simp only [hcompile] at hpool
  have hres : Resolves s e.registry (thresholdGraph v T) 2 :=
    resolves_of_loadNodes (Jit.loadNodes_threshold v T) (by change 0 ∈ [2, 0, 1]; decide) (by
      show (e.registry.getField s (Jit.storedName v)).isSome
      rw [hfield]
      rfl)
  have hinst := installed_setExpression hcompile hres
  rw [setExpression_some _ s hcompile] at *
  refine ⟨_, AList.lookup_insert _, rfl,
    hinst.decides (fun _ => ⟨?_, ?_⟩) hpool (Jit.wellTyped_threshold v T) ?_⟩
  · simp [Jit.fieldNames_threshold]
  · simp [Jit.listing_threshold]
  · intro bytes r hr
    rw [Jit.laneVerdict_eq_truth (Jit.wellTyped_threshold v T)
      (fun _ => ⟨Jit.over_threshold v T (by decide), by
        rw [Jit.collectComparisons_threshold]; decide⟩)
      (fun _ => Jit.over_threshold v T (by decide)) hr, Jit.truth_threshold, exceeds, rowOf]
    show decide (T < (Option.map _ (e.registry.getField s (Jit.storedName v))).getD 0) = _
    rw [hfield]
    rfl

/-- The planes of the constant that the small engine compiles. -/
theorem pool_threshold (v : StringView) (mode : ExecutionMode) :
    (Jit.compile mode Jit.standardHeap (thresholdGraph v 5) (some 2) sampleState).2.pool ⊆
      (Caller.standard [5] (by decide)).pool := by
  cases mode with
  | bitSliced => exact List.Subset.refl [((5 : Word), Jit.standardHeap 0)]
  | scalar => exact List.nil_subset _

end Expression
end Api
end ApexEngine
