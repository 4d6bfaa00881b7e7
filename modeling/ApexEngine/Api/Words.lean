import ApexEngine.Api.CApi
import ApexEngine.Api.Execution
import ApexEngine.Compute.Words

/-!
# What a call returns in the end

`apex_execute` gets a row count of 64 bits and answers with a word, and the word -1 means that
a pointer was null.  Two things could make this go wrong that a model over natural numbers
does not show.  The loop over the chunks could run over the end of the words, and a count could
be mistaken for the error.

The first happens exactly for row counts in the last block of the words, where `chunk * 64` is
always below the count; a client gets there with a small negative number
(`executeWord_returns_iff`).  The second never happens, since a count is at most the number of
places in the chunks (`apexExecute_returns_iff`).  `execute_parallel` runs for ever on the same
row counts as `execute` (`executeParallelWord_returns_iff`).
-/

namespace ApexEngine
namespace Api

open A64 (Word)
open Compute (BitSlicer ColumnBuffer behind min64 toNat_min64_sub gatherField popcount)
open Jit (Caller)

/-! ## Executing over words -/

section Words

variable (callers : ℕ → Caller) (space : Word → UInt8) (base : Word)

/-- The chunk of the expression path with number `chunk`. -/
def Engine.exprChunkWord (logic : ExprCompiledLogic) (rowStride : ℕ) (rowCount chunk : Word)
    (e : Engine) : Option (Engine × ℕ) :=
  let chunkPtr := base + chunk * 64 * BitVec.ofNat 64 rowStride
  let rowsInChunk := min64 (rowCount - chunk * 64)
  (e.processChunkExpr (behind space chunkPtr) (callers (chunk * 64).toNat) 0 rowStride
    rowsInChunk.toNat logic fun _ => 0).map fun r => (r.1, popcount r.2)

/-- The chunk of the threshold path with number `chunk`. -/
def Engine.legacyChunkWord (logic : CompiledLogic) (rowStride : ℕ) (rowCount chunk : Word)
    (e : Engine) : Option (Engine × ℕ) :=
  let chunkPtr := base + chunk * 64 * BitVec.ofNat 64 rowStride
  let rowsInChunk := min64 (rowCount - chunk * 64)
  let gathered := gatherField (behind space chunkPtr) 0 logic.field rowStride rowsInChunk.toNat
    (e.fieldBuffers 0)
  let sliced := e.slicer.slice gathered
  ((callers (chunk * 64).toNat).callThreshold logic.kernel sliced).map fun mask =>
    ({ e with fieldBuffers := Function.update e.fieldBuffers 0 sliced }, popcount mask)

/-- `for (size_t chunk = 0; chunk * 64 < row_count; chunk++)`, as far as the fuel goes. -/
def Engine.scanWord (e : Engine) (chunk : Word → Engine → Option (Engine × ℕ)) (rowCount : Word)
    (fuel : ℕ) : Option (Engine × Word) :=
  Loop.runFor (fun i => decide (i * 64 < rowCount)) (· + 1) (Loop.accumulateWord chunk) fuel 0 (e, 0)

/-- `ApexEngine::execute`, as far as the fuel goes. -/
def Engine.executeWord (e : Engine) (order : IterationOrder) (rowCount : Word) (fuel : ℕ) :
    Option (Engine × Word) :=
  match order.front e.exprLogic with
  | some (schemaName, logic) =>
      match e.schemaMetadata.lookup schemaName with
      | none => some (e, 0)
      | some schema =>
          e.scanWord (Engine.exprChunkWord callers space base logic schema.rowStride rowCount)
            rowCount fuel
  | none =>
      match order.front e.compiledLogic with
      | none => some (e, 0)
      | some (logicKey, logic) =>
          match e.schemaMetadata.lookup logicKey with
          | none => some (e, 0)
          | some schema =>
              e.scanWord (Engine.legacyChunkWord callers space base logic schema.rowStride rowCount)
                rowCount fuel

/-- `ApexEngine::execute_parallel`, as far as the fuel goes. -/
def Engine.executeParallelWord (e : Engine) (workers : ℕ → ℕ → Caller) (slicer : BitSlicer)
    (fieldBuffers : ℕ → ℕ → ColumnBuffer) (order : IterationOrder) (rowCount : Word)
    (numThreads : BitVec 32) (fuel : ℕ) : Option (Engine × Word) :=
  match order.front e.exprLogic with
  | none => e.executeWord callers space base order rowCount fuel
  | some (schemaName, logic) =>
      match e.schemaMetadata.lookup schemaName with
      | none => some (e, 0)
      | some schema =>
          (Compute.runWord workers slicer fieldBuffers space base rowCount
            ⟨logic.kernel, logic.fields, schema.rowStride, logic.mode⟩ numThreads fuel).map
            fun total => (e, total)

/-- There is something to scan: the first logic is that of a schema with metadata. -/
def Engine.Scans (e : Engine) (order : IterationOrder) : Prop :=
  match order.front e.exprLogic with
  | some (schemaName, _) => (e.schemaMetadata.lookup schemaName).isSome
  | none =>
      match order.front e.compiledLogic with
      | none => False
      | some (logicKey, _) => (e.schemaMetadata.lookup logicKey).isSome

theorem Engine.scans_of_expr {e : Engine} {order : IterationOrder} {name : Core.Name}
    {logic : ExprCompiledLogic} {schema : SchemaMetadata}
    (hfront : order.front e.exprLogic = some (name, logic))
    (hschema : e.schemaMetadata.lookup name = some schema) : e.Scans order := by
  simp only [Engine.Scans, hfront, hschema, Option.isSome_some]

theorem Engine.scans_of_threshold {e : Engine} {order : IterationOrder} {name : Core.Name}
    {logic : CompiledLogic} {schema : SchemaMetadata} (hexpr : e.exprLogic = ∅)
    (hfront : order.front e.compiledLogic = some (name, logic))
    (hschema : e.schemaMetadata.lookup name = some schema) : e.Scans order := by
  have hnone : order.front e.exprLogic = none := (order.front_eq_none_iff _).mpr hexpr
  simp only [Engine.Scans, hnone, hfront, hschema, Option.isSome_some]

/-! ## Chunks -/

variable {callers space base} {rowStride : ℕ} {rowCount chunk : Word}

theorem chunkPtr_eq (chunk : Word) (rowStride : ℕ) :
    base + chunk * 64 * BitVec.ofNat 64 rowStride =
      base + BitVec.ofNat 64 ((chunk * 64).toNat * rowStride) := by
  rw [BitVec.ofNat_mul, BitVec.ofNat_toNat, BitVec.setWidth_eq]

/-- **A chunk is the chunk of the other model.** -/
theorem exprChunkWord_eq {logic : ExprCompiledLogic} (h : (chunk * 64).toNat < rowCount.toNat) :
    Engine.exprChunkWord callers space base logic rowStride rowCount chunk =
      Engine.exprChunk callers (behind space base) logic rowStride rowCount.toNat
        (chunk * 64).toNat := by
  funext e
  have hfield : chunkField e
      (behind space (base + BitVec.ofNat 64 ((chunk * 64).toNat * rowStride))) logic 0 rowStride
      (min 64 (rowCount.toNat - (chunk * 64).toNat)) = chunkField e (behind space base) logic
      ((chunk * 64).toNat * rowStride) rowStride (min 64 (rowCount.toNat - (chunk * 64).toNat)) := by
    funext i s
    simp only [chunkField, Compute.gatherField_behind_add]
  simp only [Engine.exprChunkWord, Engine.exprChunk, Engine.processChunkExpr, toNat_min64_sub h,
    chunkPtr_eq, hfield]

theorem legacyChunkWord_eq {logic : CompiledLogic} (h : (chunk * 64).toNat < rowCount.toNat) :
    Engine.legacyChunkWord callers space base logic rowStride rowCount chunk =
      Engine.legacyChunk callers (behind space base) logic rowStride rowCount.toNat
        (chunk * 64).toNat := by
  funext e
  simp only [Engine.legacyChunkWord, Engine.legacyChunk, toNat_min64_sub h, chunkPtr_eq,
    Compute.gatherField_behind_add]

theorem popcount_le (mask : Word) : popcount mask ≤ 64 :=
  List.countP_le_length.trans (Nat.le_of_eq List.length_range)

/-- **The loop over the chunks** returns when the rows end below the last block of the words. -/
theorem scanWord_returns_iff {e : Engine} {chunkWord : Word → Engine → Option (Engine × ℕ)}
    {chunk : ℕ → Engine → Option (Engine × ℕ)}
    (hchunk : ∀ i : Word, (i * 64).toNat < rowCount.toNat → chunkWord i = chunk (i * 64).toNat)
    {r : Engine × Word} :
    (∃ fuel, e.scanWord chunkWord rowCount fuel = some r) ↔ rowCount.toNat ≤ 2 ^ 64 - 64 ∧
      ∃ m, e.scan chunk rowCount.toNat = some (r.1, m) ∧ r.2 = BitVec.ofNat 64 m := by
  have hcounts : Loop.Counts (fun i : Word => decide (i * 64 < rowCount)) (· + 1) 0 64 0
      rowCount.toNat 64 := Loop.counts_mul 64 rowCount
  have hiter : ∀ k, 0 + k * 64 < rowCount.toNat →
      (((· + 1)^[k] (0 : Word)) * 64).toNat = 0 + k * 64 := by
    intro k hk
    have hword := rowCount.isLt
    have hvar : (· + 1)^[k] (0 : Word) = BitVec.ofNat 64 (0 + k * 1) := Loop.iterate_add 1 0 k
    rw [hvar, show (64 : Word) = BitVec.ofNat 64 64 from rfl, ← BitVec.ofNat_mul, BitVec.toNat_ofNat,
      Nat.mod_eq_of_lt (by omega)]
    omega
  have hstep : ∀ k, 0 + k * 64 < rowCount.toNat →
      chunkWord ((· + 1)^[k] 0) = chunk (0 + k * 64) := by
    intro k hk
    rw [hchunk _ (by rw [hiter k hk]; exact hk), hiter k hk]
  exact hcounts.returns_accumulate (by omega) (by decide) (by omega) hstep

/-- A total is a number of places in the chunks. -/
theorem le_of_scan {e : Engine} {chunk : ℕ → Engine → Option (Engine × ℕ)} {n : ℕ}
    (hle : ∀ row s r, chunk row s = some r → r.2 ≤ 64) (hrows : n ≤ 2 ^ 64 - 64)
    {r : Engine × ℕ} (h : e.scan chunk n = some r) : r.2 ≤ 2 ^ 64 - 64 := by
  have hbound := Loop.le_of_forUp_accumulate hle h
  rw [Loop.trips] at hbound
  omega

theorem exprChunk_le {data : Compute.Data} {logic : ExprCompiledLogic} {n row : ℕ} {s : Engine}
    {r : Engine × ℕ} (h : Engine.exprChunk callers data logic rowStride n row s = some r) :
    r.2 ≤ 64 := by
  obtain ⟨r', -, rfl⟩ := Option.map_eq_some_iff.mp h
  exact popcount_le _

theorem legacyChunk_le {data : Compute.Data} {logic : CompiledLogic} {n row : ℕ} {s : Engine}
    {r : Engine × ℕ} (h : Engine.legacyChunk callers data logic rowStride n row s = some r) :
    r.2 ≤ 64 := by
  obtain ⟨mask, -, rfl⟩ := Option.map_eq_some_iff.mp h
  exact popcount_le _

/-! ## Calls -/

variable {order : IterationOrder} {e : Engine} {r : Engine × Word}

/-- What returns zero at once, in both models. -/
theorem returns_at_once {P : Prop} (hP : ¬ P) :
    (∃ _ : ℕ, some (e, (0 : Word)) = some r) ↔ (P → rowCount.toNat ≤ 2 ^ 64 - 64) ∧
      ∃ m, some (e, 0) = some (r.1, m) ∧ r.2 = BitVec.ofNat 64 m := by
  constructor
  · rintro ⟨-, h⟩
    obtain rfl := Option.some.inj h
    exact ⟨fun h => absurd h hP, 0, rfl, rfl⟩
  · rintro ⟨-, m, hm, hword⟩
    obtain ⟨he, rfl⟩ := Prod.mk.inj (Option.some.inj hm)
    exact ⟨0, congrArg some (Prod.ext he hword.symm)⟩

/-- **`execute` over words** returns exactly when no kernel faults and, as far as there is
something to scan, the rows end below the last block of the words.  It returns what the model
over natural numbers does. -/
theorem executeWord_returns_iff :
    (∃ fuel, e.executeWord callers space base order rowCount fuel = some r) ↔
      (e.Scans order → rowCount.toNat ≤ 2 ^ 64 - 64) ∧ ∃ m,
        e.execute callers (behind space base) order rowCount.toNat = some (r.1, m) ∧
          r.2 = BitVec.ofNat 64 m := by
  unfold Engine.executeWord Engine.execute Engine.Scans
  cases order.front e.exprLogic with
  | some p =>
    cases hschema : e.schemaMetadata.lookup p.1 with
    | none =>
      simp only [hschema]
      exact returns_at_once (by simp)
    | some schema =>
      simp only [hschema, Option.isSome_some, forall_const]
      exact scanWord_returns_iff fun i hi => exprChunkWord_eq hi
  | none =>
    cases order.front e.compiledLogic with
    | none => exact returns_at_once id
    | some p =>
      cases hschema : e.schemaMetadata.lookup p.1 with
      | none =>
        simp only [hschema]
        exact returns_at_once (by simp)
      | some schema =>
        simp only [hschema, Option.isSome_some, forall_const]
        exact scanWord_returns_iff fun i hi => legacyChunkWord_eq hi

/-- `execute` returns a count, with enough fuel. -/
def Engine.CountsWord (e : Engine) (callers : ℕ → Caller) (space : Word → UInt8) (base : Word)
    (order : IterationOrder) (rowCount total : Word) : Prop :=
  ∃ fuel e', e.executeWord callers space base order rowCount fuel = some (e', total)

/-- The count over words is that of the model over natural numbers. -/
theorem Engine.countsWord_iff {total : Word} :
    e.CountsWord callers space base order rowCount total ↔
      (e.Scans order → rowCount.toNat ≤ 2 ^ 64 - 64) ∧ ∃ m,
        e.count callers (behind space base) order rowCount.toNat = some m ∧
          total = BitVec.ofNat 64 m := by
  constructor
  · rintro ⟨fuel, e', h⟩
    obtain ⟨hrows, m, hm, hword⟩ := executeWord_returns_iff.mp ⟨fuel, h⟩
    exact ⟨hrows, m, by rw [Engine.count, hm, Option.map_some], hword⟩
  · rintro ⟨hrows, m, hm, rfl⟩
    obtain ⟨r, hr, rfl⟩ := Option.map_eq_some_iff.mp hm
    have hreturns : ∃ fuel, e.executeWord callers space base order rowCount fuel =
        some (r.1, BitVec.ofNat 64 r.2) := executeWord_returns_iff.mpr ⟨hrows, r.2, hr, rfl⟩
    obtain ⟨fuel, h⟩ := hreturns
    exact ⟨fuel, r.1, h⟩

/-- Where there is something to scan and no kernel faults, only the number of rows decides. -/
theorem Engine.countsWord_iff_of_count (hscans : e.Scans order) {m : ℕ}
    (hcount : e.count callers (behind space base) order rowCount.toNat = some m) {total : Word} :
    e.CountsWord callers space base order rowCount total ↔
      rowCount.toNat ≤ 2 ^ 64 - 64 ∧ total = BitVec.ofNat 64 m := by
  rw [Engine.countsWord_iff, hcount]
  constructor
  · rintro ⟨hrows, m', hm, htotal⟩
    obtain rfl := Option.some.inj hm
    exact ⟨hrows hscans, htotal⟩
  · rintro ⟨hrows, htotal⟩
    exact ⟨fun _ => hrows, m, rfl, htotal⟩

/-- `execute_parallel` returns a count, with enough fuel. -/
def Engine.CountsParallelWord (e : Engine) (callers : ℕ → Caller) (space : Word → UInt8)
    (base : Word) (workers : ℕ → ℕ → Caller) (slicer : BitSlicer)
    (fieldBuffers : ℕ → ℕ → ColumnBuffer) (order : IterationOrder) (rowCount : Word)
    (numThreads : BitVec 32) (total : Word) : Prop :=
  ∃ fuel e', e.executeParallelWord callers space base workers slicer fieldBuffers order rowCount
    numThreads fuel = some (e', total)

/-- **A count is never mistaken**: it is at most the last multiple of 64. -/
theorem le_of_execute {data : Compute.Data} {n : ℕ} (hrows : e.Scans order → n ≤ 2 ^ 64 - 64)
    {r : Engine × ℕ} (h : e.execute callers data order n = some r) : r.2 ≤ 2 ^ 64 - 64 := by
  unfold Engine.execute at h
  unfold Engine.Scans at hrows
  have hzero : some (e, 0) = some r → r.2 ≤ 2 ^ 64 - 64 := fun h => by
    obtain rfl := Option.some.inj h
    exact Nat.zero_le _
  cases hexpr : order.front e.exprLogic with
  | some p =>
    simp only [hexpr] at h hrows
    cases hschema : e.schemaMetadata.lookup p.1 with
    | none =>
      rw [hschema] at h
      exact hzero h
    | some schema =>
      rw [hschema] at h hrows
      exact le_of_scan (fun _ _ _ => exprChunk_le) (hrows rfl) h
  | none =>
    simp only [hexpr] at h hrows
    cases hlogic : order.front e.compiledLogic with
    | none =>
      rw [hlogic] at h
      exact hzero h
    | some p =>
      simp only [hlogic] at h hrows
      cases hschema : e.schemaMetadata.lookup p.1 with
      | none =>
        rw [hschema] at h
        exact hzero h
      | some schema =>
        rw [hschema] at h hrows
        exact le_of_scan (fun _ _ _ => legacyChunk_le) (hrows rfl) h

/-- Workers return when the rows end below the last block of the words, and no kernel faults. -/
theorem executeParallelWord_of_expr {name : Core.Name} {logic : ExprCompiledLogic}
    {schema : SchemaMetadata} (hfront : order.front e.exprLogic = some (name, logic))
    (hschema : e.schemaMetadata.lookup name = some schema) (workers : ℕ → ℕ → Caller)
    (slicer : BitSlicer) (fieldBuffers : ℕ → ℕ → ColumnBuffer) (numThreads : BitVec 32) :
    (∃ fuel, e.executeParallelWord callers space base workers slicer fieldBuffers order rowCount
        numThreads fuel = some r) ↔
      rowCount.toNat ≤ 2 ^ 64 - 64 ∧ ∃ m,
        e.executeParallel callers (behind space base) workers slicer fieldBuffers order
          rowCount.toNat numThreads.toInt = some (r.1, m) ∧ r.2 = BitVec.ofNat 64 m := by
  simp only [Engine.executeParallelWord, Engine.executeParallel, hfront, hschema]
  have hrun := fun w => @Compute.runWord_returns_iff workers slicer fieldBuffers space base
    rowCount ⟨logic.kernel, logic.fields, schema.rowStride, logic.mode⟩ numThreads w
  constructor
  · rintro ⟨fuel, h⟩
    obtain ⟨w, hw, rfl⟩ := Option.map_eq_some_iff.mp h
    obtain ⟨hrows, m, hm, rfl⟩ := (hrun w).mp ⟨fuel, hw⟩
    exact ⟨hrows, m, by rw [hm, Option.map_some], rfl⟩
  · rintro ⟨hrows, m, hm, hword⟩
    obtain ⟨m', hm', heq⟩ := Option.map_eq_some_iff.mp hm
    obtain ⟨he, rfl⟩ := Prod.mk.inj heq
    obtain ⟨fuel, hw⟩ := (hrun r.2).mpr ⟨hrows, m', hm', hword⟩
    exact ⟨fuel, by rw [hw, Option.map_some, he]⟩

/-- Their count over words is that of the model over natural numbers. -/
theorem Engine.countsParallelWord_iff {name : Core.Name} {logic : ExprCompiledLogic}
    {schema : SchemaMetadata} (hfront : order.front e.exprLogic = some (name, logic))
    (hschema : e.schemaMetadata.lookup name = some schema) {workers : ℕ → ℕ → Caller}
    {slicer : BitSlicer} {fieldBuffers : ℕ → ℕ → ColumnBuffer} {numThreads : BitVec 32}
    {total : Word} :
    e.CountsParallelWord callers space base workers slicer fieldBuffers order rowCount numThreads
        total ↔
      rowCount.toNat ≤ 2 ^ 64 - 64 ∧ ∃ m,
        e.countParallel callers (behind space base) workers slicer fieldBuffers order
          rowCount.toNat numThreads.toInt = some m ∧ total = BitVec.ofNat 64 m := by
  have hreturns := fun r => @executeParallelWord_of_expr callers space base rowCount order e r _ _ _
    hfront hschema workers slicer fieldBuffers numThreads
  constructor
  · rintro ⟨fuel, e', h⟩
    obtain ⟨hrows, m, hm, hword⟩ := (hreturns _).mp ⟨fuel, h⟩
    exact ⟨hrows, m, by rw [Engine.countParallel, hm, Option.map_some], hword⟩
  · rintro ⟨hrows, m, hm, rfl⟩
    obtain ⟨r, hr, rfl⟩ := Option.map_eq_some_iff.mp hm
    obtain ⟨fuel, h⟩ := (hreturns (r.1, BitVec.ofNat 64 r.2)).mpr ⟨hrows, r.2, hr, rfl⟩
    exact ⟨fuel, r.1, h⟩

/-- **`execute_parallel` over words** returns on the same row counts as `execute`, and what the
model over natural numbers does.  The number of threads makes no difference. -/
theorem executeParallelWord_returns_iff (callers : ℕ → Caller) (space : Word → UInt8)
    (base : Word) (e : Engine) (workers : ℕ → ℕ → Caller) (slicer : BitSlicer)
    (fieldBuffers : ℕ → ℕ → ColumnBuffer) (order : IterationOrder) (rowCount : Word)
    (numThreads : BitVec 32) (r : Engine × Word) :
    (∃ fuel, e.executeParallelWord callers space base workers slicer fieldBuffers order rowCount
        numThreads fuel = some r) ↔
      (e.Scans order → rowCount.toNat ≤ 2 ^ 64 - 64) ∧ ∃ m,
        e.executeParallel callers (behind space base) workers slicer fieldBuffers order
          rowCount.toNat numThreads.toInt = some (r.1, m) ∧ r.2 = BitVec.ofNat 64 m := by
  unfold Engine.executeParallelWord Engine.executeParallel
  cases hexpr : order.front e.exprLogic with
  | none => exact executeWord_returns_iff
  | some p =>
    cases hschema : e.schemaMetadata.lookup p.1 with
    | none =>
      simp only [Engine.Scans, hexpr, hschema]
      exact returns_at_once (by simp)
    | some schema =>
      have hreturns := @executeParallelWord_of_expr callers space base rowCount order e r _ _ _
        hexpr hschema workers slicer fieldBuffers numThreads
      simp only [Engine.executeParallelWord, Engine.executeParallel, hexpr, hschema] at hreturns
      simp only [Engine.Scans, hexpr, hschema, Option.isSome_some, forall_const]
      exact hreturns

end Words

/-! ## The C interface -/

/-- `apex_execute`, as far as the fuel goes.  A data pointer that is null is zero. -/
def apexExecute (callers : ℕ → Caller) (space : Word → UInt8) (order : IterationOrder)
    (handle : Option Engine) (dataPtr count : Word) (fuel : ℕ) : Option (Option Engine × Word) :=
  match handle with
  | none => some (none, -1)
  | some engine =>
      if dataPtr = 0 then some (some engine, -1)
      else (engine.executeWord callers space dataPtr order count fuel).map fun r => (some r.1, r.2)

/-- **What `apex_execute` returns.**  It returns -1 exactly when a pointer is null.  Otherwise
it returns a number of matches, when it returns at all: it does not when a kernel faults, and
not when there is something to scan and the rows reach into the last block of the words. -/
theorem apexExecute_returns_iff (callers : ℕ → Caller) (space : Word → UInt8)
    (order : IterationOrder) (handle : Option Engine) (dataPtr count : Word)
    (r : Option Engine × Word) :
    ((∃ fuel, apexExecute callers space order handle dataPtr count fuel = some r) ↔
      (handle = none ∨ dataPtr = 0) ∧ r = (handle, -1) ∨
      ∃ e, handle = some e ∧ dataPtr ≠ 0 ∧ (e.Scans order → count.toNat ≤ 2 ^ 64 - 64) ∧
        ∃ e' m, e.execute callers (behind space dataPtr) order count.toNat = some (e', m) ∧
          r = (some e', BitVec.ofNat 64 m)) ∧
    ((∃ fuel, apexExecute callers space order handle dataPtr count fuel = some r) →
      (r.2 = -1 ↔ handle = none ∨ dataPtr = 0)) := by
  by_cases hnull : handle = none ∨ dataPtr = 0
  · have hreturn : ∀ fuel, apexExecute callers space order handle dataPtr count fuel =
        some (handle, -1) := by
      intro fuel
      rcases hnull with rfl | rfl
      · rfl
      · cases handle <;> rfl
    simp only [hreturn, exists_const, Option.some_inj]
    refine ⟨⟨fun h => Or.inl ⟨hnull, h.symm⟩, ?_⟩, fun h => iff_of_true (by rw [← h]) hnull⟩
    rintro (⟨-, h⟩ | ⟨e, he, hdata, -⟩)
    · exact h.symm
    · rcases hnull with hnone | hzero
      · exact absurd (he.symm.trans hnone) (by simp)
      · exact absurd hzero hdata
  · obtain ⟨hhandle, hdata⟩ := not_or.mp hnull
    obtain ⟨e, rfl⟩ := Option.ne_none_iff_exists'.mp hhandle
    have hcall : (∃ fuel, apexExecute callers space order (some e) dataPtr count fuel = some r) ↔
        (e.Scans order → count.toNat ≤ 2 ^ 64 - 64) ∧
          ∃ e' m, e.execute callers (behind space dataPtr) order count.toNat = some (e', m) ∧
            r = (some e', BitVec.ofNat 64 m) := by
      simp only [apexExecute, if_neg hdata, Option.map_eq_some_iff]
      constructor
      · rintro ⟨fuel, r', hr, rfl⟩
        obtain ⟨hrows, m, hm, hword⟩ := executeWord_returns_iff.mp ⟨fuel, hr⟩
        exact ⟨hrows, r'.1, m, hm, by rw [hword]⟩
      · rintro ⟨hrows, e', m, hm, rfl⟩
        have hreturns : ∃ fuel, e.executeWord callers space dataPtr order count fuel =
            some (e', BitVec.ofNat 64 m) := executeWord_returns_iff.mpr ⟨hrows, m, hm, rfl⟩
        obtain ⟨fuel, hr⟩ := hreturns
        exact ⟨fuel, _, hr, rfl⟩
    refine ⟨hcall.trans ⟨?_, ?_⟩, fun h => iff_of_false ?_ hnull⟩
    · rintro ⟨hrows, hexecute⟩
      exact Or.inr ⟨e, rfl, hdata, hrows, hexecute⟩
    · rintro (⟨h, -⟩ | ⟨e', he, -, hrows, hexecute⟩)
      · exact absurd h hnull
      · obtain rfl := Option.some.inj he
        exact ⟨hrows, hexecute⟩
    · -- a count is below the error
      obtain ⟨hrows, e', m, hm, rfl⟩ := hcall.mp h
      have hle : m ≤ 2 ^ 64 - 64 := le_of_execute hrows hm
      intro heq
      have hnat := congrArg BitVec.toNat heq
      rw [BitVec.toNat_ofNat, Nat.mod_eq_of_lt (by omega)] at hnat
      have herror : (-1 : Word).toNat = 2 ^ 64 - 1 := by decide
      omega

end Api
end ApexEngine
