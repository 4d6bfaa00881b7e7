import ApexEngine.Api.Execution
import ApexEngine.Api.Words

/-!
# `execute_parallel`

The workers gather the rows of their intervals with the code of the serial loop, so on a
block of rows they call the kernel with the same columns, and only the scratchpad is
another: a worker clears it once and not before every block.  A kernel relies on no cell
of it but the slots of shifts, which it leaves as they are.

On an interval of rows a worker therefore counts what the serial loop counts when it is
given the rows of the interval as its dataset, and what earlier blocks have left in the
scratchpad changes no block's count (`workerThread_refines`).  Where rows are machine words
there is one difference: `row += 64` can step over the end of the words from a row that the
serial loop, which starts at zero, never reaches, and then the worker does not return
(`workerThreadWord_refines_iff`).  All workers together count
what the serial loop counts as soon as their intervals are what they should be, and that
depends on the number of rows and threads only (`executeParallel_iff`).
-/

namespace ApexEngine
namespace Api

open A64 (Word)
open Core (Name)
open Compute (BitSlicer ColumnBuffer Data ExactPartition Divides tasks threadCount behind)
open Jit (Caller Graph NodeRef CompileState Fits)

section Parallel

variable {e : Engine} {name : Name} {logic : ExprCompiledLogic} {g : Graph} {root : NodeRef}
  {compiled : CompileState} {x2 x3 x5 : Word} {order : IterationOrder} {schema : SchemaMetadata}
  {callers : ℕ → Caller} {workers : ℕ → ℕ → Caller}

/-- **What `execute_parallel` returns** when the rows divide well among the threads. -/
theorem Installed.countParallel (h : Installed e name logic g root compiled)
    (hfits : Fits g logic.mode root)
    (hpool : ∀ start row, compiled.pool ⊆ (workers start row).pool)
    (hreads : ∀ start row, Reads g root x2 x3 x5 (workers start row))
    (hfront : order.front e.exprLogic = some (name, logic))
    (hschema : e.schemaMetadata.lookup name = some schema) {n : ℕ} {numThreads : ℤ}
    (hdiv : Divides n (threadCount numThreads)) (data : Data) (slicer : BitSlicer)
    (fieldBuffers : ℕ → ℕ → ColumnBuffer) :
    e.countParallel callers data workers slicer fieldBuffers order n numThreads =
      some (Blocks.blockSum 64 n fun start _ =>
        blockHits e name logic g root data schema.rowStride n x2 x3 x5 start) := by
  have hbound : ∀ f < min (logic.config schema).fields.length 8,
      ((logic.config schema).fields.getD f none).isSome :=
    fun f hf => h.bound f (hf.trans_le (Nat.min_le_left _ _))
  have hrun : Compute.run workers slicer fieldBuffers data n (logic.config schema) numThreads =
      some (Blocks.blockSum 64 n fun start _ =>
        blockHits e name logic g root data schema.rowStride n x2 x3 x5 start) :=
    Compute.run_eq hdiv hbound (Jit.keeps_zero logic.mode g root compiled.metas)
      fun start c _ => h.answers hfits (hpool start (c * 64)) (hreads start (c * 64)) data
        schema.rowStride n (c * 64)
  simp only [Engine.countParallel, Engine.executeParallel, hfront, hschema]
  rw [← ExprCompiledLogic.config, hrun, Option.map_some, Option.map_some]

/-- The buffer advanced by some rows. -/
def advanced (data : Data) (rowStride rows : ℕ) : Data := fun a => data (rows * rowStride + a)

/-- A block of the advanced buffer is a block of the buffer. -/
theorem blockHits_advanced (data : Data) (rowStride startRow endRow start : ℕ) (x2 x3 x5 : Word) :
    blockHits e name logic g root (advanced data rowStride startRow) rowStride (endRow - startRow)
        x2 x3 x5 start =
      blockHits e name logic g root data rowStride endRow x2 x3 x5 (startRow + start) := by
  have hrow : ∀ r, Compute.blockRow (advanced data rowStride startRow) (start * rowStride) rowStride
      (min 64 (endRow - startRow - start)) r =
      Compute.blockRow data ((startRow + start) * rowStride) rowStride
        (min 64 (endRow - (startRow + start))) r := by
    intro r
    funext a
    unfold Compute.blockRow advanced
    rw [Nat.sub_sub, Nat.add_mul, Nat.add_assoc, Nat.add_assoc, Nat.add_assoc]
  simp only [blockHits, blockMask, hrow]

/-- **A worker refines the serial loop** on every interval of rows: it counts what
`execute` counts on the advanced buffer.  And every block counts what it counts on a
cleared scratchpad, whatever blocks, of whatever data, have used the scratchpad before. -/
theorem workerThread_refines (h : Installed e name logic g root compiled) (hw : g.WellTyped root)
    (hnodes : logic.mode = .scalar → (g.listing root).length ≤ 512)
    (hfront : order.front e.exprLogic = some (name, logic))
    (hschema : e.schemaMetadata.lookup name = some schema) {workers : ℕ → Caller}
    (hpool : ∀ row, compiled.pool ⊆ (callers row).pool)
    (hpools : ∀ row, compiled.pool ⊆ (workers row).pool) (slicer : BitSlicer)
    (fieldBuffers : ℕ → ColumnBuffer) (data : Data) (startRow endRow : ℕ) :
    (∃ total, Compute.workerThread workers slicer (logic.config schema) data fieldBuffers startRow
        endRow = some total ∧
      e.count callers (advanced data schema.rowStride startRow) order (endRow - startRow) =
        some total) ∧
    ∀ (blocks : List Compute.Block) (b : Compute.Block), ∃ s s₁ s₂ count,
      Compute.workerBlocks workers slicer (logic.config schema) blocks ⟨fieldBuffers, fun _ => 0⟩ =
        some s ∧
      Compute.workerBlock workers slicer (logic.config schema) b.data b.endRow b.row s =
        some (s₁, count) ∧
      Compute.workerBlock workers slicer (logic.config schema) b.data b.endRow b.row
        ⟨fieldBuffers, fun _ => 0⟩ = some (s₂, count) := by
  have hfits := h.fits hnodes
  have hbound : ∀ f < min (logic.config schema).fields.length 8,
      ((logic.config schema).fields.getD f none).isSome :=
    fun f hf => h.bound f (hf.trans_le (Nat.min_le_left _ _))
  have hzero := Jit.keeps_zero logic.mode g root compiled.metas
  have hreads : ∀ caller, Reads g root 0 0 0 caller := fun _ => Or.inl hw
  have hanswers := fun row (data : Data) endRow =>
    h.answers hfits (hpools row) (hreads (workers row)) data schema.rowStride endRow row
  refine ⟨⟨_, Compute.workerThread_eq hbound hzero (fun c _ => hanswers _ data endRow)
    fieldBuffers, ?_⟩, fun blocks b => ?_⟩
  · rw [h.count hfits hpool (fun row => hreads (callers row)) hfront hschema]
    simp only [blockHits_advanced]
  · obtain ⟨s, hs, hI⟩ := Compute.workerBlocks_inv hbound
      (fun b : Compute.Block => hanswers b.row b.data b.endRow) blocks
      (s := ⟨fieldBuffers, fun _ => 0⟩) hzero
    obtain ⟨s₁, hs₁, -⟩ := Compute.workerBlock_eq hbound (hanswers b.row b.data b.endRow) hI
    obtain ⟨s₂, hs₂, -⟩ := Compute.workerBlock_eq hbound (hanswers b.row b.data b.endRow)
      (s := ⟨fieldBuffers, fun _ => 0⟩) hzero
    exact ⟨s, s₁, s₂, _, hs, hs₁, hs₂⟩

/-- The buffer advanced by some rows is what lies behind the advanced pointer. -/
theorem behind_advanced (space : Word → UInt8) (base startRow : Word) (rowStride : ℕ) :
    behind space (base + startRow * BitVec.ofNat 64 rowStride) =
      advanced (behind space base) rowStride startRow.toNat := by
  have hbase : base + startRow * BitVec.ofNat 64 rowStride =
      base + BitVec.ofNat 64 (startRow.toNat * rowStride) := by
    rw [BitVec.ofNat_mul, BitVec.ofNat_toNat, BitVec.setWidth_eq]
  funext a
  rw [hbase, Compute.behind_add, advanced]

/-- A worker returns a count, with enough fuel. -/
def WorkerCountsWord (workers : ℕ → Caller) (slicer : BitSlicer) (config : Compute.TaskConfig)
    (space : Word → UInt8) (base : Word) (fieldBuffers : ℕ → ColumnBuffer)
    (startRow endRow total : Word) : Prop :=
  ∃ fuel, Compute.workerThreadWord workers slicer config space base fuel fieldBuffers startRow
    endRow = some total

/-- **A worker refines the serial loop over words** exactly when `row += 64` does not step over
the end of the words before the interval ends: then both return, with the same count.  From a
start with remainder `r` the last row is `2 ^ 64 - 64 + r`.  And every block counts what it
counts on a cleared scratchpad, whatever blocks, of whatever data, have used it before. -/
theorem workerThreadWord_refines_iff (h : Installed e name logic g root compiled)
    (hw : g.WellTyped root) (hnodes : logic.mode = .scalar → (g.listing root).length ≤ 512)
    (hfront : order.front e.exprLogic = some (name, logic))
    (hschema : e.schemaMetadata.lookup name = some schema) {workers : ℕ → Caller}
    (hpool : ∀ row, compiled.pool ⊆ (callers row).pool)
    (hpools : ∀ row, compiled.pool ⊆ (workers row).pool) (slicer : BitSlicer)
    (fieldBuffers : ℕ → ColumnBuffer) (space : Word → UInt8) (base startRow endRow : Word)
    (hle : startRow ≤ endRow) :
    ((∃ total, WorkerCountsWord workers slicer (logic.config schema) space base fieldBuffers
          startRow endRow total ∧
        e.CountsWord callers space (base + startRow * BitVec.ofNat 64 schema.rowStride) order
          (endRow - startRow) total) ↔
      endRow.toNat ≤ 2 ^ 64 - 64 + startRow.toNat % 64) ∧
    ∀ (blocks : List Compute.Block) (b : Compute.Block), ∃ s s₁ s₂ count,
      Compute.workerBlocks workers slicer (logic.config schema) blocks ⟨fieldBuffers, fun _ => 0⟩ =
        some s ∧
      Compute.workerBlock workers slicer (logic.config schema) b.data b.endRow b.row s =
        some (s₁, count) ∧
      Compute.workerBlock workers slicer (logic.config schema) b.data b.endRow b.row
        ⟨fieldBuffers, fun _ => 0⟩ = some (s₂, count) := by
  have hrefines := workerThread_refines h hw hnodes hfront hschema hpool hpools slicer fieldBuffers
    (behind space base) startRow.toNat endRow.toNat
  refine ⟨⟨?_, fun hbound => ?_⟩, hrefines.2⟩
  · rintro ⟨total, hworker, -⟩
    exact (Compute.workerThreadWord_returns_iff.mp hworker).1
  · obtain ⟨m, hworker, hcount⟩ := hrefines.1
    have hrows : (endRow - startRow).toNat = endRow.toNat - startRow.toNat :=
      BitVec.toNat_sub_of_le hle
    refine ⟨BitVec.ofNat 64 m, Compute.workerThreadWord_returns_iff.mpr ⟨hbound, m, hworker, rfl⟩,
      Engine.countsWord_iff.mpr ⟨fun _ => ?_, m, ?_, rfl⟩⟩
    · have hword := endRow.isLt
      omega
    · rw [behind_advanced, hrows, hcount]

/-- A worker on the rows 3 to 130 of a dataset of sevens. -/
theorem workerThreadWord_refines_threshold : ∃ e st logic total,
    sampleEngine.setExpression [115] Jit.standardHeap (Jit.thresholdGraph (.ofString [97]) 5)
      (some 2) .scalar sampleState = (e, st) ∧
    WorkerCountsWord (fun _ => Caller.standard [] (by decide)) .portable
      (ExprCompiledLogic.config logic ⟨8, [sampleField]⟩) (fun _ => 7) 4096 (fun _ _ => 0) 3 130
        total ∧
    e.CountsWord (fun _ => Caller.standard [] (by decide)) (fun _ => 7) 4120 .latest 127 total := by
  obtain ⟨e, st, logic, he, hinst, hfits, hmode, hfront, hschema, -, hpool⟩ :=
    sampleEngine_installed (Jit.loadNodes_threshold (.ofString [97]) 5) (by decide) rfl (by decide)
  have hsub : ∀ pool : List (Word × Word), st.pool ⊆ pool := fun pool => by
    rw [hpool]
    exact List.nil_subset pool
  obtain ⟨total, hworker, hcount⟩ := (workerThreadWord_refines_iff hinst
    (Jit.wellTyped_threshold (.ofString [97]) 5) (fun _ => (hfits hmode).2) (hfront .latest)
    hschema (fun _ => hsub _) (fun _ => hsub _) .portable (fun _ _ => 0) (fun _ => 7) 4096 3 130
    (by decide)).1.mpr (by decide)
  exact ⟨e, st, logic, total, he, hworker, hcount⟩

/-- **A worker may not return** where the serial loop does.  Of `2 ^ 64 - 1` rows the second of
two threads gets those from `2 ^ 63 - 64` on.  The advanced buffer has `2 ^ 63 + 63` rows. -/
theorem workerThreadWord_diverges : ¬ ∀ (e : Engine) (name : Name) (logic : ExprCompiledLogic)
    (g : Graph) (root : NodeRef) (compiled : CompileState) (order : IterationOrder)
    (schema : SchemaMetadata) (callers workers : ℕ → Caller) (slicer : BitSlicer)
    (fieldBuffers : ℕ → ColumnBuffer) (space : Word → UInt8) (base startRow endRow : Word),
    Installed e name logic g root compiled → g.WellTyped root → Fits g logic.mode root →
    order.front e.exprLogic = some (name, logic) → e.schemaMetadata.lookup name = some schema →
    (∀ row, compiled.pool ⊆ (callers row).pool) → (∀ row, compiled.pool ⊆ (workers row).pool) →
    startRow ≤ endRow →
    ∀ total, WorkerCountsWord workers slicer (logic.config schema) space base fieldBuffers startRow
        endRow total ↔
      e.CountsWord callers space (base + startRow * BitVec.ofNat 64 schema.rowStride) order
        (endRow - startRow) total := by
  intro h
  obtain ⟨e, st, logic, -, hinst, hfits, hmode, hfront, hschema, -, hpool⟩ :=
    sampleEngine_installed (Jit.loadNodes_threshold (.ofString [97]) 5) (by decide) rfl (by decide)
  have hsub : ∀ pool : List (Word × Word), st.pool ⊆ pool := fun pool => by
    rw [hpool]
    exact List.nil_subset pool
  have hagree := h e [115] logic _ 2 st .latest ⟨8, [sampleField]⟩
    (fun _ => Caller.standard [] (by decide)) (fun _ => Caller.standard [] (by decide)) .portable
    (fun _ _ => 0) (fun _ => 7) 4096 (BitVec.ofNat 64 (2 ^ 63 - 64)) (BitVec.ofNat 64 (2 ^ 64 - 1))
    hinst (Jit.wellTyped_threshold _ _) hfits (hfront .latest) hschema (fun _ => hsub _)
    (fun _ => hsub _) (by decide)
  have hpools : ∀ _ : ℕ, st.pool ⊆ (Caller.standard [] (by decide)).pool := fun _ => hsub _
  -- the serial loop returns on the advanced buffer
  obtain ⟨m, -, hcount⟩ := (workerThread_refines hinst (Jit.wellTyped_threshold (.ofString [97]) 5)
    (fun _ => (hfits hmode).2) (hfront .latest) hschema hpools hpools .portable (fun _ _ => 0)
    (behind (fun _ => 7) 4096) (2 ^ 63 - 64) (2 ^ 64 - 1)).1
  have hstart : (BitVec.ofNat 64 (2 ^ 63 - 64)).toNat = 2 ^ 63 - 64 := by decide
  have hend : (BitVec.ofNat 64 (2 ^ 64 - 1)).toNat = 2 ^ 64 - 1 := by decide
  have hrows : (BitVec.ofNat 64 (2 ^ 64 - 1) - BitVec.ofNat 64 (2 ^ 63 - 64)).toNat =
      2 ^ 64 - 1 - (2 ^ 63 - 64) := by decide
  have hserial := Engine.countsWord_iff.mpr ⟨fun _ => by rw [hrows]; omega, m, by
    rw [behind_advanced, hstart, hrows, hcount], rfl⟩
  obtain ⟨hbound, -⟩ := Compute.workerThreadWord_returns_iff.mp ((hagree _).mpr hserial)
  rw [hstart, hend] at hbound
  exact absurd hbound (by decide)

/-- **The workers refine the serial loop** exactly when the rows divide well among the
threads: then the intervals are an exact partition of the rows and both return the same
count on every dataset. -/
theorem executeParallel_iff (callers : ℕ → Caller) (workers : ℕ → ℕ → Caller)
    (h : Installed e name logic g root compiled)
    (hfits : Fits g logic.mode root) (hfront : order.front e.exprLogic = some (name, logic))
    (hschema : e.schemaMetadata.lookup name = some schema)
    (hpool : ∀ row, compiled.pool ⊆ (callers row).pool)
    (hpools : ∀ start row, compiled.pool ⊆ (workers start row).pool)
    (hreads : ∀ row, Reads g root x2 x3 x5 (callers row))
    (hreadss : ∀ start row, Reads g root x2 x3 x5 (workers start row)) (slicer : BitSlicer)
    (fieldBuffers : ℕ → ℕ → ColumnBuffer) (n : ℕ) (numThreads : ℤ) :
    (ExactPartition n (tasks n (threadCount numThreads)) ∧
      ∀ data, ∃ total, e.count callers data order n = some total ∧
        e.countParallel callers data workers slicer fieldBuffers order n numThreads = some total) ↔
      Divides n (threadCount numThreads) := by
  have hthreads := Compute.threadCount_pos numThreads
  rw [Compute.exactPartition_iff hthreads]
  refine and_iff_left_of_imp fun hdiv data => ?_
  exact ⟨_, h.count hfits hpool hreads hfront hschema data n,
    h.countParallel hfits hpools hreadss hfront hschema hdiv data slicer fieldBuffers⟩

/-- Four threads and 1024 rows of sevens: every thread has 256 of them. -/
theorem executeParallel_iff_threshold : ∃ e st, sampleEngine.setExpression [115] Jit.standardHeap
      (Jit.thresholdGraph (.ofString [97]) 5) (some 2) .scalar sampleState = (e, st) ∧
    ∃ total, e.count (fun _ => Caller.standard [] (by decide)) (fun _ => 7) .latest 1024 =
        some total ∧
      e.countParallel (fun _ => Caller.standard [] (by decide)) (fun _ => 7)
        (fun _ _ => Caller.standard [] (by decide)) .portable (fun _ _ _ => 0) .latest 1024 4 =
        some total := by
  obtain ⟨e, st, logic, he, hinst, hfits, -, hfront, hschema, -, hpool⟩ := sampleEngine_installed
    (Jit.loadNodes_threshold (.ofString [97]) 5) (by decide) rfl (by decide)
  have hsub : ∀ pool : List (Word × Word), st.pool ⊆ pool := fun pool => by
    rw [hpool]
    exact List.nil_subset pool
  have hreads : ∀ caller, Reads (Jit.thresholdGraph (.ofString [97]) 5) 2 0 0 0 caller :=
    fun _ => Or.inl (Jit.wellTyped_threshold _ _)
  have hiff := executeParallel_iff (fun _ => Caller.standard [] (by decide))
    (fun _ _ => Caller.standard [] (by decide)) hinst hfits (hfront .latest) hschema
    (fun _ => hsub _) (fun _ _ => hsub _) (fun _ => hreads _) (fun _ _ => hreads _) .portable
    (fun _ _ _ => 0) 1024 4
  exact ⟨e, st, he, (hiff.mpr (by decide)).2 fun _ => 7⟩

/-- **Over words** the workers refine the serial loop exactly when, besides, the rows do not reach
into the last block of the words, where neither returns. -/
theorem executeParallelWord_iff (callers : ℕ → Caller) (workers : ℕ → ℕ → Caller)
    (h : Installed e name logic g root compiled)
    (hfits : Fits g logic.mode root) (hfront : order.front e.exprLogic = some (name, logic))
    (hschema : e.schemaMetadata.lookup name = some schema)
    (hpool : ∀ row, compiled.pool ⊆ (callers row).pool)
    (hpools : ∀ start row, compiled.pool ⊆ (workers start row).pool)
    (hreads : ∀ row, Reads g root x2 x3 x5 (callers row))
    (hreadss : ∀ start row, Reads g root x2 x3 x5 (workers start row)) (slicer : BitSlicer)
    (fieldBuffers : ℕ → ℕ → ColumnBuffer) (rowCount : Word) (numThreads : BitVec 32) :
    (ExactPartition rowCount.toNat (tasks rowCount.toNat (threadCount numThreads.toInt)) ∧
      ∀ space base, ∃ total, e.CountsWord callers space base order rowCount total ∧
        e.CountsParallelWord callers space base workers slicer fieldBuffers order rowCount
          numThreads total) ↔
      Divides rowCount.toNat (threadCount numThreads.toInt) ∧ rowCount.toNat ≤ 2 ^ 64 - 64 := by
  rw [Compute.exactPartition_iff (Compute.threadCount_pos numThreads.toInt)]
  refine and_congr_right fun hdiv => ?_
  have hcount := fun data => h.count hfits hpool hreads hfront hschema data rowCount.toNat
  have hparallel : ∀ data, e.countParallel callers data workers slicer fieldBuffers order
      rowCount.toNat numThreads.toInt = some _ := fun data =>
    h.countParallel hfits hpools hreadss hfront hschema hdiv data slicer fieldBuffers
  constructor
  · intro hcounts
    obtain ⟨total, htotal, -⟩ := hcounts (fun _ => 0) 0
    exact ((Engine.countsWord_iff_of_count (Engine.scans_of_expr hfront hschema)
      (hcount _)).mp htotal).1
  · intro hrows space base
    exact ⟨_, (Engine.countsWord_iff_of_count (Engine.scans_of_expr hfront hschema)
      (hcount _)).mpr ⟨hrows, rfl⟩,
      (Engine.countsParallelWord_iff hfront hschema).mpr ⟨hrows, _, hparallel _, rfl⟩⟩

end Parallel

/-- **The workers may read beyond the rows.**  Of 65 rows the first of four threads gets 64
and the second is started for the last one, with an interval of 64 rows again. -/
theorem executeParallel_overruns : ¬ ∀ (e : Engine) (name : Name) (logic : ExprCompiledLogic)
    (g : Graph) (root : NodeRef) (compiled : CompileState) (order : IterationOrder)
    (schema : SchemaMetadata) (callers : ℕ → Caller) (workers : ℕ → ℕ → Caller)
    (slicer : BitSlicer) (fieldBuffers : ℕ → ℕ → ColumnBuffer) (n : ℕ) (numThreads : ℤ),
    Installed e name logic g root compiled → Fits g logic.mode root → g.WellTyped root →
    order.front e.exprLogic = some (name, logic) → e.schemaMetadata.lookup name = some schema →
    (∀ row, compiled.pool ⊆ (callers row).pool) →
    (∀ start row, compiled.pool ⊆ (workers start row).pool) →
    ExactPartition n (tasks n (threadCount numThreads)) ∧
      ∀ data, ∃ total, e.count callers data order n = some total ∧
        e.countParallel callers data workers slicer fieldBuffers order n numThreads = some total := by
  intro h
  obtain ⟨e, st, logic, -, hinst, hfits, -, hfront, hschema, -, hpool⟩ := sampleEngine_installed
    (Jit.loadNodes_threshold (.ofString [97]) 5) (by decide) rfl (by decide)
  have hsub : ∀ pool : List (Word × Word), st.pool ⊆ pool := fun pool => by
    rw [hpool]
    exact List.nil_subset pool
  have hexact := (h e [115] logic _ 2 st .latest _ (fun _ => Caller.standard [] (by decide))
    (fun _ _ => Caller.standard [] (by decide)) .portable (fun _ _ _ => 0) 65 4 hinst hfits
    (Jit.wellTyped_threshold _ _) (hfront .latest) hschema (fun _ => hsub _)
    (fun _ _ => hsub _)).1
  have hdiv : Divides 65 (threadCount 4) :=
    (Compute.exactPartition_iff (show 0 < threadCount 4 by decide)).mp hexact
  exact absurd hdiv (by decide)

end Api
end ApexEngine
