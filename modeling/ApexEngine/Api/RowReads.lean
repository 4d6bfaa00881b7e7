import ApexEngine.Api.Threshold
import Mathlib.Data.List.ReduceOption

/-!
# What `execute` reads of a dataset

`execute` reaches the dataset through `gather_field` only, so what it reads can be written down
beside it: for each block, for each bound field, the eight bytes of every row of the block, and
nothing of a block after one whose kernel has faulted (`Engine.executeReads`).  Nothing is left
out: on datasets that agree on these bytes `execute` does the same (`execute_congr`).

The bytes of row `i` begin at `i * stride`, and a field of it is read from its offset on, eight
bytes whatever its declared width.  A field may be declared at the end of a row with fewer than
eight bytes.  Its reads then run into the next row, and those of the last row out of the
dataset; which field, block or row it is does not matter otherwise, and neither does the way a
block is split between the unrolled loop and the rest (`reads_in_bounds_iff`).
-/

namespace ApexEngine
namespace Api

open A64 (Word)
open Core (Name FieldDescriptor)
open Compute (ColumnBuffer Data gatherField gatherFieldReads gatherField_congr mem_gatherFieldReads)
open Jit (ExecutionMode Caller Graph NodeRef CompileState Fits)

/-! ## The reads -/

/-- What one iteration of the field loop reads: a null slot is skipped. -/
def chunkFieldReads (logic : ExprCompiledLogic) (ptr rowStride rowCount i : ℕ) : List ℕ :=
  match logic.fields.getD i none with
  | some field => gatherFieldReads ptr field rowStride rowCount
  | none => []

/-- What one chunk of the expression path reads, at row `row`. -/
def exprChunkReads (logic : ExprCompiledLogic) (rowStride rowCount row : ℕ) : List ℕ :=
  Loop.collect 0 (min logic.fields.length 8) 1
    (chunkFieldReads logic (row * rowStride) rowStride (min 64 (rowCount - row)))

/-- What one chunk of the threshold path reads. -/
def legacyChunkReads (logic : CompiledLogic) (rowStride rowCount row : ℕ) : List ℕ :=
  gatherFieldReads (row * rowStride) logic.field rowStride (min 64 (rowCount - row))

/-- The indices of the bytes that `execute` reads, in order. -/
def Engine.executeReads (e : Engine) (callers : ℕ → Caller) (data : Data) (order : IterationOrder)
    (rowCount : ℕ) : List ℕ :=
  match order.front e.exprLogic with
  | some (schemaName, logic) =>
      match e.schemaMetadata.lookup schemaName with
      | none => []
      | some schema =>
          Loop.marked 0 rowCount 64 (Engine.exprChunk callers data logic schema.rowStride rowCount)
            (exprChunkReads logic schema.rowStride rowCount) e
  | none =>
      match order.front e.compiledLogic with
      | none => []
      | some (logicKey, logic) =>
          match e.schemaMetadata.lookup logicKey with
          | none => []
          | some schema =>
              Loop.marked 0 rowCount 64
                (Engine.legacyChunk callers data logic schema.rowStride rowCount)
                (legacyChunkReads logic schema.rowStride rowCount) e

section Congr

variable {callers : ℕ → Caller} {data data' : Data} {rowStride rowCount : ℕ}

theorem exprChunk_congr {logic : ExprCompiledLogic} {row : ℕ}
    (h : ∀ a ∈ exprChunkReads logic rowStride rowCount row, data a = data' a) :
    Engine.exprChunk callers data logic rowStride rowCount row =
      Engine.exprChunk callers data' logic rowStride rowCount row := by
  funext e
  have hfields : ∀ s, Loop.forUp 0 (min logic.fields.length 8) 1
      (chunkField e data logic (row * rowStride) rowStride (min 64 (rowCount - row))) s =
      Loop.forUp 0 (min logic.fields.length 8) 1
        (chunkField e data' logic (row * rowStride) rowStride (min 64 (rowCount - row))) s := by
    refine Loop.forUp_congr Nat.one_pos fun j hj => ?_
    have hreads := fun a ha => h a ((Loop.mem_collect Nat.one_pos).mpr ⟨j, hj, ha⟩)
    funext s
    unfold chunkFieldReads at hreads
    unfold chunkField
    cases hfield : logic.fields.getD (0 + j * 1) none with
    | none => rfl
    | some field =>
      rw [hfield] at hreads
      simp only
      rw [gatherField_congr hreads]
  rw [Engine.exprChunk, Engine.exprChunk, Engine.processChunkExpr, Engine.processChunkExpr, hfields]

theorem legacyChunk_congr {logic : CompiledLogic} {row : ℕ}
    (h : ∀ a ∈ legacyChunkReads logic rowStride rowCount row, data a = data' a) :
    Engine.legacyChunk callers data logic rowStride rowCount row =
      Engine.legacyChunk callers data' logic rowStride rowCount row := by
  funext e
  rw [Engine.legacyChunk, Engine.legacyChunk, gatherField_congr h]

/-- **`execute` depends on what it reads.** -/
theorem execute_congr {e : Engine} {order : IterationOrder}
    (h : ∀ a ∈ e.executeReads callers data order rowCount, data a = data' a) :
    e.execute callers data order rowCount = e.execute callers data' order rowCount := by
  unfold Engine.executeReads at h
  unfold Engine.execute
  cases hexpr : order.front e.exprLogic with
  | some p =>
    simp only [hexpr] at h ⊢
    cases hschema : e.schemaMetadata.lookup p.1 with
    | none => rfl
    | some schema =>
      rw [hschema] at h
      exact Loop.forUp_accumulate_congr (by omega) (fun j _ => exprChunk_congr) h
  | none =>
    simp only [hexpr] at h ⊢
    cases hlegacy : order.front e.compiledLogic with
    | none => rfl
    | some p =>
      simp only [hlegacy] at h ⊢
      cases hschema : e.schemaMetadata.lookup p.1 with
      | none => rfl
      | some schema =>
        rw [hschema] at h
        exact Loop.forUp_accumulate_congr (by omega) (fun j _ => legacyChunk_congr) h

end Congr

/-! ## Rows -/

/-- The bytes that are read of rows `0` to `n - 1` for some fields. -/
def IsRowByte (fields : List FieldDescriptor) (rowStride n a : ℕ) : Prop :=
  ∃ i < n, ∃ f ∈ fields, ∃ k < 8, a = i * rowStride + f.offset.toNat + k

/-- **Rows stay in bounds** exactly when the eight bytes of every field lie within a row. -/
theorem isRowByte_in_bounds_iff {fields : List FieldDescriptor} {rowStride n : ℕ} :
    (∀ a, IsRowByte fields rowStride n a → a < n * rowStride) ↔
      n = 0 ∨ ∀ f ∈ fields, f.offset.toNat + 8 ≤ rowStride := by
  constructor
  · intro h
    rcases Nat.eq_zero_or_pos n with hn | hn
    · exact Or.inl hn
    · refine Or.inr fun f hf => ?_
      -- the last byte that is read of the last row
      have hlast := h _ ⟨n - 1, by omega, f, hf, 7, by omega, rfl⟩
      have hrows : n * rowStride = (n - 1) * rowStride + rowStride := by
        rw [← Nat.succ_mul, Nat.succ_eq_add_one, Nat.sub_add_cancel hn]
      omega
  · rintro h a ⟨i, hi, f, hf, k, hk, rfl⟩
    have hfield := h.resolve_left (by omega) f hf
    have hrow : (i + 1) * rowStride ≤ n * rowStride := Nat.mul_le_mul_right _ hi
    rw [Nat.succ_mul] at hrow
    omega

section Rows

variable {rowStride n a : ℕ} {field : FieldDescriptor}

/-- The blocks of a scan read the rows there are. -/
theorem exists_block_iff {fields : List FieldDescriptor} :
    (∃ j, 0 + j * 64 < n ∧ ∃ f ∈ fields, a ∈ gatherFieldReads ((0 + j * 64) * rowStride) f rowStride
        (min 64 (n - (0 + j * 64)))) ↔ IsRowByte fields rowStride n a := by
  simp only [Nat.zero_add, mem_gatherFieldReads (Nat.min_le_left _ _), ← Nat.add_mul]
  constructor
  · rintro ⟨j, hj, f, hf, r, hr, k, hk, rfl⟩
    exact ⟨j * 64 + r, by omega, f, hf, k, hk, rfl⟩
  · rintro ⟨i, hi, f, hf, k, hk, rfl⟩
    refine ⟨i / 64, by omega, f, hf, i % 64, by omega, k, hk, ?_⟩
    rw [Nat.div_add_mod']

/-- The fields that a chunk gathers. -/
def gathered (logic : ExprCompiledLogic) : List FieldDescriptor := (logic.fields.take 8).reduceOption

theorem mem_gathered {logic : ExprCompiledLogic} :
    field ∈ gathered logic ↔
      ∃ j < min logic.fields.length 8, logic.fields.getD j none = some field := by
  rw [gathered, List.reduceOption_mem_iff, List.mem_iff_getElem?]
  refine exists_congr fun j => ?_
  rw [List.getElem?_take, List.getD_eq_getElem?_getD]
  constructor
  · intro h
    split at h
    · rename_i hlt
      have hlen := (List.getElem?_eq_some_iff.mp h).1
      exact ⟨by omega, by rw [h]; rfl⟩
    · exact absurd h (by simp)
  · rintro ⟨hj, h⟩
    have hlen : j < logic.fields.length := by omega
    rw [List.getElem?_eq_getElem hlen, Option.getD_some] at h
    rw [if_pos (by omega), List.getElem?_eq_getElem hlen, h]

/-- A chunk of the expression path reads the fields it gathers. -/
theorem mem_exprChunkReads {logic : ExprCompiledLogic} {row : ℕ} :
    a ∈ exprChunkReads logic rowStride n row ↔
      ∃ f ∈ gathered logic, a ∈ gatherFieldReads (row * rowStride) f rowStride (min 64 (n - row)) := by
  simp only [exprChunkReads, Loop.mem_collect Nat.one_pos, Nat.zero_add, Nat.mul_one,
    mem_gathered]
  constructor
  · rintro ⟨j, hj, ha⟩
    rw [chunkFieldReads] at ha
    cases hfield : logic.fields.getD j none with
    | none =>
      rw [hfield] at ha
      exact absurd ha List.not_mem_nil
    | some f =>
      rw [hfield] at ha
      exact ⟨f, ⟨j, hj, hfield⟩, ha⟩
  · rintro ⟨f, ⟨j, hj, hfield⟩, ha⟩
    refine ⟨j, hj, ?_⟩
    rw [chunkFieldReads, hfield]
    exact ha

end Rows

/-! ## Installed logic -/

/-- The logic that `execute` runs, with the fields it gathers and the stride of its schema: an
expression over registered fields, or a threshold when there is no expression. -/
inductive Scanned (e : Engine) (callers : ℕ → Caller) (order : IterationOrder) :
    List FieldDescriptor → ℕ → Prop where
  | expression {s : Name} {logic : ExprCompiledLogic} {schema : SchemaMetadata} {g : Graph}
      {root : NodeRef} {compiled : CompileState} (front : order.front e.exprLogic = some (s, logic))
      (schema_eq : e.schemaMetadata.lookup s = some schema)
      (installed : Installed e s logic g root compiled)
      (nodes_le : logic.mode = .scalar → (g.listing root).length ≤ 512)
      (pool : ∀ row, compiled.pool ⊆ (callers row).pool) :
      Scanned e callers order (gathered logic) schema.rowStride
  | threshold {s : Name} {field : FieldDescriptor} {T : Word} {schema : SchemaMetadata}
      (exprLogic : e.exprLogic = ∅)
      (front : order.front e.compiledLogic = some (s, ⟨field, Jit.compileComparison T⟩))
      (schema_eq : e.schemaMetadata.lookup s = some schema) :
      Scanned e callers order [field] schema.rowStride

section Installed

variable {e : Engine} {callers : ℕ → Caller} {data : Data} {rowStride rowCount : ℕ}

/-- A chunk of an installed expression returns. -/
theorem Installed.exprChunk_isSome {s : Name} {logic : ExprCompiledLogic} {g : Graph}
    {root : NodeRef} {compiled : CompileState} (h : Installed e s logic g root compiled)
    (hnodes : logic.mode = .scalar → (g.listing root).length ≤ 512)
    (hpool : ∀ row, compiled.pool ⊆ (callers row).pool) (row : ℕ) (buffers : ℕ → ColumnBuffer) :
    (Engine.exprChunk callers data logic rowStride rowCount row
      { e with fieldBuffers := buffers }).isSome := by
  obtain ⟨heap, st, hcompile⟩ := h.kernel
  have hshows := chunkFields_spec { e with fieldBuffers := buffers } data logic (row * rowStride)
    rowStride (min 64 (rowCount - row)) buffers
  rw [funext₂ (Compute.blockColumn_eq data _ _ _)] at hshows
  obtain ⟨m, S, hrun, -⟩ := answers_of_compile hcompile (h.fits hnodes) (hpool row) h.binds _ _ _
    hshows (Jit.keeps_zero _ _ _ _)
  rw [Engine.exprChunk, Engine.processChunkExpr, hrun]
  rfl

/-- So does one of a threshold. -/
theorem legacyChunk_isSome (s : Engine) (field : FieldDescriptor) (T : Word) (row : ℕ) :
    (Engine.legacyChunk callers data ⟨field, Jit.compileComparison T⟩ rowStride rowCount row
      s).isSome := by
  rw [Engine.legacyChunk, Jit.callThreshold_compileComparison]
  rfl

/-- **What `execute` reads** for an installed logic: the words of its fields in all rows. -/
theorem mem_executeReads {order : IterationOrder} {fields : List FieldDescriptor}
    (h : Scanned e callers order fields rowStride) (data : Data) (n a : ℕ) :
    a ∈ e.executeReads callers data order n ↔ IsRowByte fields rowStride n a := by
  have hmarked : ∀ (chunk : ℕ → Engine → Option (Engine × ℕ)) (reads : ℕ → List ℕ),
      (∀ row buffers, (chunk row { e with fieldBuffers := buffers }).isSome) →
      (∀ row s s' m, chunk row s = some (s', m) → ∃ buffers, s' = { s with fieldBuffers := buffers }) →
      Loop.marked 0 n 64 chunk reads e = Loop.collect 0 n 64 reads := by
    intro chunk reads hchunk hframe
    refine Loop.marked_eq_collect (fun s : Engine => ∃ buffers, s = { e with fieldBuffers := buffers })
      (by omega) ?_ ⟨e.fieldBuffers, rfl⟩
    rintro j - s ⟨buffers, rfl⟩
    obtain ⟨⟨s', m⟩, hrow⟩ := Option.isSome_iff_exists.mp (hchunk (0 + j * 64) buffers)
    obtain ⟨buffers', rfl⟩ := hframe _ _ _ _ hrow
    exact ⟨_, m, hrow, buffers', rfl⟩
  rw [← exists_block_iff]
  cases h with
  | expression hfront hschema hinstalled hnodes hpool =>
    simp only [Engine.executeReads, hfront, hschema]
    rw [hmarked _ _ (hinstalled.exprChunk_isSome hnodes hpool) fun _ _ _ _ => exprChunk_frame,
      Loop.mem_collect (by omega)]
    simp only [mem_exprChunkReads]
  | threshold hexpr hfront hschema =>
    have hnone : order.front e.exprLogic = none := (order.front_eq_none_iff _).mpr hexpr
    simp only [Engine.executeReads, hnone, hfront, hschema]
    rw [hmarked _ _ (fun row _ => legacyChunk_isSome _ _ _ row) fun _ _ _ _ => legacyChunk_frame,
      Loop.mem_collect (by omega)]
    simp only [legacyChunkReads, List.mem_singleton, exists_eq_left]

end Installed

/-- What `set_logic` installs on an engine without logic is what `execute` runs. -/
theorem scanned_setLogic {e : Engine} {s f : Name} {schema : SchemaMetadata} {field : FieldDescriptor}
    {T : Word} (he : Configured e s schema) (hfield : e.registry.getField s f = some field)
    (callers : ℕ → Caller) (order : IterationOrder) :
    Scanned (e.setLogic s f T) callers order [field] schema.rowStride := by
  have hset : e.setLogic s f T = _ := setLogic_some hfield
  refine .threshold ?_ (front_setLogic he hfield order) ?_
  · rw [hset]
    exact he.exprLogic
  · rw [hset]
    exact he.schema

/-- **`execute` stays within the rows exactly when every field it gathers has eight bytes in a
row**, or there are no rows: for every engine, dataset and number of rows. -/
theorem reads_in_bounds_iff {e : Engine} {callers : ℕ → Caller} {order : IterationOrder}
    {fields : List FieldDescriptor} {rowStride : ℕ} (h : Scanned e callers order fields rowStride)
    (data : Data) (n : ℕ) :
    (∀ a ∈ e.executeReads callers data order n, a < n * rowStride) ↔
      n = 0 ∨ ∀ f ∈ fields, f.offset.toNat + 8 ≤ rowStride := by
  simp only [mem_executeReads h data]
  exact isRowByte_in_bounds_iff

/-- Three rows of eight bytes, with a field that fills them. -/
theorem reads_in_bounds_iff_sample :
    Scanned (sampleEngine.setLogic [115] [97] 5) (fun _ => Caller.standard [] (by decide)) .latest
        [sampleField] 8 ∧
      ∀ a ∈ (sampleEngine.setLogic [115] [97] 5).executeReads
        (fun _ => Caller.standard [] (by decide)) (fun _ => 0) .latest 3, a < 3 * 8 := by
  have hscanned : Scanned (sampleEngine.setLogic [115] [97] 5)
      (fun _ => Caller.standard [] (by decide)) .latest [sampleField] 8 :=
    scanned_setLogic (configured_new .portable (fun _ _ => 0) [115] [sampleField] 8)
      (getField_new .portable (fun _ _ => 0) [115] [97] [sampleField] 8) _ _
  refine ⟨hscanned, (reads_in_bounds_iff hscanned (fun _ => 0) 3).mpr (Or.inr ?_)⟩
  decide

/-- A field of four bytes at the end of rows of eight bytes. -/
def narrowField : FieldDescriptor := ⟨[97], 4, 32, .uint32⟩

/-- **A narrow field at the end of a row is read beyond the last row.** -/
theorem reads_out_of_bounds : ¬ ∀ (slicer : Compute.BitSlicer) (buffers : ℕ → ColumnBuffer)
    (s : Name) (fields : List FieldDescriptor) (stride : ℕ) (f : Name) (T : Word)
    (callers : ℕ → Caller) (order : IterationOrder) (data : Data) (n : ℕ),
    (∀ d ∈ fields, d.offset.toNat + d.bitWidth.toNat / 8 ≤ stride) →
    ∀ a ∈ (((Engine.new slicer buffers).registerSchema s fields stride).setLogic s f T).executeReads
      callers data order n, a < n * stride := by
  intro h
  have hscanned := scanned_setLogic (T := 5) (configured_new .portable (fun _ _ => 0) [115]
    [narrowField] 8) (getField_new .portable (fun _ _ => 0) [115] [97] [narrowField] 8)
    (fun _ => Caller.standard [] (by decide)) .latest
  have hbyte : IsRowByte [narrowField] 8 1 8 := ⟨0, by decide, narrowField, by decide, 4, by decide, rfl⟩
  have hread := (mem_executeReads hscanned (fun _ => 0) 1 8).mpr hbyte
  exact absurd (h _ _ _ _ _ _ _ _ _ _ _ (by decide) _ hread) (by decide)

end Api
end ApexEngine
