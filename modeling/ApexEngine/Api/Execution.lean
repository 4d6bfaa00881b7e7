import ApexEngine.Api.Binding

/-!
# What `execute` counts

A scan visits the blocks of 64 rows, gathers the fields of each and counts the bits of
the mask its kernel returns (`scan_exprChunk`, `scan_legacyChunk`); it leaves everything
but the column buffers as it was.

The rows a last block does not have are gathered as zeros, and their bits are counted
like all others.  So a scan for a predicate counts the rows that satisfy it, and 64 less
the length of the last block more when a row of zeros satisfies it (`count_eq`).

Kernels are made to be called in this way: what a compiled kernel returns is
`kernelMask` of the rows of the block (`answers_of_compile`).
-/

namespace ApexEngine
namespace Api

open A64 (Word Item)
open Core (Name SchemaRegistry FieldDescriptor)
open Compute (ColumnBuffer Data Staging Staged ShowsFields Answers blockColumn blockRow memcpy8
  gatherField gatherField_apply popcount)
open Jit (ExecutionMode Caller Scratch Graph NodeRef NodeMetas CompileState Presents Fits Keeps
  kernelMask)

/-! ## Compiled kernels -/

section Kernels

variable {schemaName : Name} {registry : SchemaRegistry} {mode : ExecutionMode} {heap : ℕ → Word}
  {g : Graph} {root : NodeRef} {st st' : CompileState} {code : List Item}

/-- The fields of a row, as a schema names them. -/
def rowOf (registry : SchemaRegistry) (schemaName : Name) (bytes : Data) : Graph.Row := fun name =>
  ((registry.getField schemaName name).map fun field => memcpy8 bytes field.offset.toNat).getD 0

/-- Planes that show the bound slots present the fields of the expression. -/
theorem presents_of_binds {ms : NodeMetas} {fields : Slots} {planes : Jit.Planes} {bytes : ℕ → Data}
    (hbinds : Binds schemaName registry g root ms fields)
    (hshows : ShowsFields mode fields planes fun field r => memcpy8 (bytes r) field.offset.toNat) :
    Presents mode g root ms planes fun r => rowOf registry schemaName (bytes r) := by
  intro n hn
  obtain ⟨i, field, hidx, hi, hslot, hfield⟩ := hbinds n hn
  have hplane := hshows i (by omega)
  rw [hslot] at hplane
  obtain ⟨p, hp, hcolumn⟩ := hplane
  refine ⟨p, by rw [hidx]; exact hp, ?_⟩
  simp only [rowOf, hfield, Option.map_some, Option.getD_some]
  exact hcolumn

/-- **What a compiled kernel answers** for a block of rows. -/
theorem answers_of_compile (hcompile : Jit.compile mode heap g (some root) st = (some code, st'))
    (hfits : Fits g mode root) {caller : Caller} (hpool : st'.pool ⊆ caller.pool) {fields : Slots}
    (hbinds : Binds schemaName registry g root st'.metas fields) (bytes : ℕ → Data) :
    Answers caller code mode fields (fun field r => memcpy8 (bytes r) field.offset.toNat)
      (Keeps g mode root st'.metas) fun m S =>
        m = kernelMask g (fun r => rowOf registry schemaName (bytes r)) mode root
          (caller.regs .x2) (caller.regs .x3) (caller.regs .x5) ∧ Keeps g mode root st'.metas S := by
  intro planes scratch hshows hkeeps
  obtain ⟨S, hcall, hS⟩ := Jit.call_compiled hcompile hfits hpool
    (presents_of_binds hbinds hshows) hkeeps
  exact ⟨_, S, hcall, rfl, hS⟩

end Kernels

/-! ## Scans -/

section Scan

variable {callers : ℕ → Caller} {data : Data} {e : Engine} {rowCount : ℕ}

/-- **The chunk loop**, when every chunk returns. -/
theorem scan_eq {chunk : ℕ → Engine → Option (Engine × ℕ)} {count : ℕ → ℕ}
    (hchunk : ∀ c, c * 64 < rowCount → ∀ buffers, ∃ buffers',
      chunk (c * 64) { e with fieldBuffers := buffers } =
        some ({ e with fieldBuffers := buffers' }, count (c * 64))) :
    ∃ buffers, e.scan chunk rowCount =
      some ({ e with fieldBuffers := buffers },
        Blocks.blockSum 64 rowCount fun start _ => count start) := by
  have hstep : ∀ c, 0 + c * 64 < rowCount →
      ∀ s : Engine, (∃ buffers, s = { e with fieldBuffers := buffers }) →
        ∃ s', chunk (0 + c * 64) s = some (s', count (0 + c * 64)) ∧
          ∃ buffers, s' = { e with fieldBuffers := buffers } := by
    rintro c hc s ⟨buffers, rfl⟩
    rw [Nat.zero_add] at hc ⊢
    obtain ⟨buffers', h⟩ := hchunk c hc buffers
    exact ⟨_, h, buffers', rfl⟩
  obtain ⟨s, hs, buffers, rfl⟩ := Loop.forUp_accumulate
    (fun s : Engine => ∃ buffers, s = { e with fieldBuffers := buffers }) count
    (by omega : 0 < 64) hstep (s := e) ⟨e.fieldBuffers, rfl⟩
  refine ⟨buffers, ?_⟩
  rw [Engine.scan, hs, Blocks.blockSum, Blocks.count, Loop.trips]
  simp

/-- The field loop of a chunk. -/
theorem chunkFields_spec (e : Engine) (data : Data) (logic : ExprCompiledLogic)
    (ptr rowStride rows : ℕ) (buffers : ℕ → ColumnBuffer) :
    ShowsFields logic.mode logic.fields
      (Loop.forUp 0 (min logic.fields.length 8) 1 (chunkField e data logic ptr rowStride rows)
        ⟨buffers, fun _ => none⟩).fieldPlanes
      (blockColumn data ptr rowStride rows) := by
  refine Staged.showsFields (Loop.forUp_inv_of_dvd
    (P := Staged logic.mode logic.fields (blockColumn data ptr rowStride rows)) Nat.one_pos
    (Nat.zero_le _) (Nat.one_dvd _) (Staged.start buffers) ?_)
  rintro i s - - hs
  unfold chunkField
  cases hfield : logic.fields.getD i none with
  | none => exact hs.skip hfield
  | some field =>
    exact hs.loadColumn hfield fun r hr => gatherField_apply data ptr field rowStride rows _ hr

/-- **A scan for an expression.** -/
theorem scan_exprChunk {logic : ExprCompiledLogic} {rowStride : ℕ} {count : ℕ → ℕ}
    (hcall : ∀ c, c * 64 < rowCount →
      Answers (callers (c * 64)) logic.kernel logic.mode logic.fields
        (blockColumn data (c * 64 * rowStride) rowStride (min 64 (rowCount - c * 64)))
        (· = fun _ => 0) fun m _ => popcount m = count (c * 64)) :
    ∃ buffers, e.scan (Engine.exprChunk callers data logic rowStride rowCount) rowCount =
      some ({ e with fieldBuffers := buffers },
        Blocks.blockSum 64 rowCount fun start _ => count start) := by
  refine scan_eq fun c hc buffers => ?_
  have hshows := chunkFields_spec { e with fieldBuffers := buffers } data logic
    (c * 64 * rowStride) rowStride (min 64 (rowCount - c * 64)) buffers
  obtain ⟨m, S, hrun, hm⟩ := hcall c hc _ _ hshows rfl
  refine ⟨(Loop.forUp 0 (min logic.fields.length 8) 1
    (chunkField { e with fieldBuffers := buffers } data logic (c * 64 * rowStride) rowStride
      (min 64 (rowCount - c * 64))) ⟨buffers, fun _ => none⟩).fieldBuffers, ?_⟩
  rw [Engine.exprChunk, Engine.processChunkExpr, hrun, ← hm]
  rfl

/-- **A scan for a threshold**, whose kernel is called with the sliced column. -/
theorem scan_legacyChunk {logic : CompiledLogic} {rowStride : ℕ} {count : ℕ → ℕ}
    (hcall : ∀ c, c * 64 < rowCount → ∀ planes : ℕ → Word,
      Jit.ShowsColumn .bitSliced planes (blockColumn data (c * 64 * rowStride) rowStride
        (min 64 (rowCount - c * 64)) logic.field) →
      ∃ m, (callers (c * 64)).callThreshold logic.kernel planes = some m ∧
        popcount m = count (c * 64)) :
    ∃ buffers, e.scan (Engine.legacyChunk callers data logic rowStride rowCount) rowCount =
      some ({ e with fieldBuffers := buffers },
        Blocks.blockSum 64 rowCount fun start _ => count start) := by
  refine scan_eq fun c hc buffers => ?_
  let gathered := gatherField data (c * 64 * rowStride) logic.field rowStride
    (min 64 (rowCount - c * 64)) (buffers 0)
  have hshows : Jit.ShowsColumn .bitSliced (e.slicer.slice gathered)
      (blockColumn data (c * 64 * rowStride) rowStride (min 64 (rowCount - c * 64)) logic.field) :=
    fun r hr => by
      rw [blockColumn, ← gatherField_apply data _ logic.field rowStride _ (buffers 0) hr]
      exact e.slicer.shows_slice gathered hr
  obtain ⟨m, hrun, hm⟩ := hcall c hc _ hshows
  refine ⟨Function.update buffers 0 (e.slicer.slice gathered), ?_⟩
  show Option.map _ ((callers (c * 64)).callThreshold logic.kernel (e.slicer.slice gathered)) = _
  rw [hrun, Option.map_some, hm]

/-- **A scan changes the buffers only**, whatever its kernel does. -/
theorem scan_frame {chunk : ℕ → Engine → Option (Engine × ℕ)}
    (hchunk : ∀ row s s' m, chunk row s = some (s', m) →
      ∃ buffers, s' = { s with fieldBuffers := buffers })
    {r : Engine × ℕ} (h : e.scan chunk rowCount = some r) :
    ∃ buffers, r.1 = { e with fieldBuffers := buffers } := by
  refine Loop.forUp_accumulate_keeps
    (I := fun s : Engine => ∃ buffers, s = { e with fieldBuffers := buffers }) ?_
    ⟨e.fieldBuffers, rfl⟩ r h
  rintro row s s' m ⟨buffers, rfl⟩ hrow
  obtain ⟨buffers', rfl⟩ := hchunk row _ s' m hrow
  exact ⟨buffers', rfl⟩

theorem exprChunk_frame {logic : ExprCompiledLogic} {rowStride row : ℕ} {s s' : Engine} {m : ℕ}
    (h : Engine.exprChunk callers data logic rowStride rowCount row s = some (s', m)) :
    ∃ buffers, s' = { s with fieldBuffers := buffers } := by
  obtain ⟨r, hchunk, hr⟩ := Option.map_eq_some_iff.mp h
  obtain ⟨r', -, rfl⟩ := Option.map_eq_some_iff.mp hchunk
  exact ⟨_, (congrArg Prod.fst hr).symm⟩

theorem legacyChunk_frame {logic : CompiledLogic} {rowStride row : ℕ} {s s' : Engine} {m : ℕ}
    (h : Engine.legacyChunk callers data logic rowStride rowCount row s = some (s', m)) :
    ∃ buffers, s' = { s with fieldBuffers := buffers } := by
  obtain ⟨mask, -, hr⟩ := Option.map_eq_some_iff.mp h
  exact ⟨_, (congrArg Prod.fst hr).symm⟩

/-- **`execute` leaves the configuration of the engine as it is.** -/
theorem execute_frame {order : IterationOrder} {r : Engine × ℕ}
    (h : e.execute callers data order rowCount = some r) :
    ∃ buffers, r.1 = { e with fieldBuffers := buffers } := by
  have hsame : ∃ buffers, e = { e with fieldBuffers := buffers } := ⟨e.fieldBuffers, rfl⟩
  unfold Engine.execute at h
  split at h
  · split at h
    · obtain rfl := Option.some.inj h
      exact hsame
    · exact scan_frame (fun _ _ _ _ => exprChunk_frame) h
  · split at h
    · obtain rfl := Option.some.inj h
      exact hsame
    · split at h
      · obtain rfl := Option.some.inj h
        exact hsame
      · exact scan_frame (fun _ _ _ _ => legacyChunk_frame) h

/-- So does `execute_parallel`. -/
theorem executeParallel_frame {workers : ℕ → ℕ → Caller} {slicer : Compute.BitSlicer}
    {fieldBuffers : ℕ → ℕ → ColumnBuffer} {order : IterationOrder} {numThreads : ℤ}
    {r : Engine × ℕ} (h : e.executeParallel callers data workers slicer fieldBuffers order rowCount
      numThreads = some r) :
    ∃ buffers, r.1 = { e with fieldBuffers := buffers } := by
  unfold Engine.executeParallel at h
  split at h
  · exact execute_frame h
  · split at h
    · obtain rfl := Option.some.inj h
      exact ⟨e.fieldBuffers, rfl⟩
    · obtain ⟨total, -, rfl⟩ := Option.map_eq_some_iff.mp h
      exact ⟨e.fieldBuffers, rfl⟩

end Scan

/-- The configuration that `execute_parallel` gives the workers. -/
def ExprCompiledLogic.config (logic : ExprCompiledLogic) (schema : SchemaMetadata) :
    Compute.TaskConfig :=
  ⟨logic.kernel, logic.fields, schema.rowStride, logic.mode⟩

/-- What is executed when there is an expression. -/
theorem execute_of_expr {callers : ℕ → Caller} {order : IterationOrder} {e : Engine} {name : Name}
    {logic : ExprCompiledLogic} {schema : SchemaMetadata}
    (hfront : order.front e.exprLogic = some (name, logic))
    (hschema : e.schemaMetadata.lookup name = some schema) (data : Data) (n : ℕ) :
    e.execute callers data order n =
      e.scan (Engine.exprChunk callers data logic schema.rowStride n) n := by
  simp only [Engine.execute, hfront, hschema]

/-- **A kernel that faults** leaves `execute` without a result. -/
theorem count_eq_none {callers : ℕ → Caller} {order : IterationOrder} {e : Engine} {name : Name}
    {logic : ExprCompiledLogic} {schema : SchemaMetadata}
    (hfront : order.front e.exprLogic = some (name, logic))
    (hschema : e.schemaMetadata.lookup name = some schema) (data : Data) {n : ℕ} (hn : 0 < n)
    (hfault : ∀ planes scratch, ShowsFields logic.mode logic.fields planes
      (blockColumn data (0 * schema.rowStride) schema.rowStride (min 64 (n - 0))) →
      (callers 0).callExpr logic.kernel planes scratch = none) :
    e.count callers data order n = none := by
  have hchunk : Engine.exprChunk callers data logic schema.rowStride n 0 e = none := by
    have hshows := chunkFields_spec e data logic (0 * schema.rowStride) schema.rowStride
      (min 64 (n - 0)) e.fieldBuffers
    rw [Engine.exprChunk, Engine.processChunkExpr, hfault _ _ hshows]
    rfl
  rw [Engine.count, execute_of_expr hfront hschema, Engine.scan,
    Loop.forUp_accumulate_none (by omega) hn hchunk]
  rfl

/-! ## Counting rows -/

section Count

/-- The bits of a mask are counted lane by lane. -/
theorem popcount_eq {m : Word} {b : ℕ → Bool} (h : ∀ r < 64, m.getLsbD r = b r) :
    popcount m = (List.range 64).countP b :=
  List.countP_congr fun r hr => by rw [h r (List.mem_range.mp hr)]

/-- The bytes of a row of a dataset. -/
def datasetRow (data : Data) (rowStride i : ℕ) : Data := fun a => data (i * rowStride + a)

/-- The rows of a block are rows of the dataset. -/
theorem blockRow_eq (data : Data) (rowStride start rows r : ℕ) :
    blockRow data (start * rowStride) rowStride rows r =
      if r < rows then datasetRow data rowStride (start + r) else fun _ => 0 := by
  funext a
  unfold blockRow datasetRow
  split
  · rw [Nat.add_mul]
  · rfl

/-- The rows of the block at `start` that satisfy a predicate, with those it does not
have. -/
def blockCount (P : Data → Bool) (data : Data) (rowStride n start : ℕ) : ℕ :=
  (List.range 64).countP fun r =>
    P (blockRow data (start * rowStride) rowStride (min 64 (n - start)) r)

/-- **Counting masks of a predicate**: the rows that satisfy it, and the rows that a last
block does not have when a row of zeros does. -/
theorem blockSum_blockCount (P : Data → Bool) (data : Data) (rowStride n : ℕ) :
    (Blocks.blockSum 64 n fun start _ => blockCount P data rowStride n start) =
      (List.range n).countP (fun i => P (datasetRow data rowStride i)) +
        if P fun _ => 0 then Blocks.count 64 n * 64 - n else 0 := by
  rw [← Blocks.blockSum_padded (by omega)]
  refine Blocks.blockSum_congr (by omega) fun c _ => List.countP_congr fun r _ => ?_
  simp only [blockRow_eq]
  split <;> rfl

end Count

/-! ## Installed logic -/

section Installed

variable {e : Engine} {name : Name} {logic : ExprCompiledLogic} {g : Graph} {root : NodeRef}
  {compiled : CompileState} {x2 x3 x5 : Word}

/-- The registers of a caller that an expression may read before it has set them.  A
well-typed one reads none. -/
def Reads (g : Graph) (root : NodeRef) (x2 x3 x5 : Word) (caller : Caller) : Prop :=
  g.WellTyped root ∨ caller.regs .x2 = x2 ∧ caller.regs .x3 = x3 ∧ caller.regs .x5 = x5

/-- The mask of a block of rows. -/
def blockMask (e : Engine) (name : Name) (logic : ExprCompiledLogic) (g : Graph) (root : NodeRef)
    (data : Data) (rowStride n : ℕ) (x2 x3 x5 : Word) (start : ℕ) : Word :=
  kernelMask g (fun r => rowOf e.registry name
      (blockRow data (start * rowStride) rowStride (min 64 (n - start)) r))
    logic.mode root x2 x3 x5

/-- The bits of the mask of a block. -/
def blockHits (e : Engine) (name : Name) (logic : ExprCompiledLogic) (g : Graph) (root : NodeRef)
    (data : Data) (rowStride n : ℕ) (x2 x3 x5 : Word) (start : ℕ) : ℕ :=
  popcount (blockMask e name logic g root data rowStride n x2 x3 x5 start)

/-- **What the kernel of an installed logic answers** for a block of rows: its mask, and
the scratchpad as it relies on it. -/
theorem Installed.answers (h : Installed e name logic g root compiled)
    (hfits : Fits g logic.mode root) {caller : Caller} (hpool : compiled.pool ⊆ caller.pool)
    (hreads : Reads g root x2 x3 x5 caller) (data : Data) (rowStride n start : ℕ) :
    Answers caller logic.kernel logic.mode logic.fields
      (blockColumn data (start * rowStride) rowStride (min 64 (n - start)))
      (Keeps g logic.mode root compiled.metas) fun m S =>
        popcount m = blockHits e name logic g root data rowStride n x2 x3 x5 start ∧
          Keeps g logic.mode root compiled.metas S := by
  obtain ⟨heap, st, hcompile⟩ := h.kernel
  rw [funext₂ (Compute.blockColumn_eq data _ _ _)]
  refine (answers_of_compile hcompile hfits hpool h.binds _).mono (fun _ hk => hk) ?_
  rintro m S ⟨rfl, hS⟩
  refine ⟨?_, hS⟩
  rcases hreads with hw | ⟨h2, h3, h5⟩
  · rw [popcount_eq fun r hr => Jit.kernelMask_getLsbD hw _ _ _ _ hr, blockHits, blockMask,
      popcount_eq fun r hr => Jit.kernelMask_getLsbD hw _ _ _ _ hr]
  · rw [h2, h3, h5, blockHits, blockMask]

/-- **What `execute` returns** for an installed logic. -/
theorem Installed.count (h : Installed e name logic g root compiled)
    (hfits : Fits g logic.mode root) {callers : ℕ → Caller}
    (hpool : ∀ row, compiled.pool ⊆ (callers row).pool)
    (hreads : ∀ row, Reads g root x2 x3 x5 (callers row)) {order : IterationOrder}
    (hfront : order.front e.exprLogic = some (name, logic)) {schema : SchemaMetadata}
    (hschema : e.schemaMetadata.lookup name = some schema) (data : Data) (n : ℕ) :
    e.count callers data order n = some (Blocks.blockSum 64 n fun start _ =>
      blockHits e name logic g root data schema.rowStride n x2 x3 x5 start) := by
  obtain ⟨buffers, hscan⟩ := scan_exprChunk (e := e) fun c _ =>
    (h.answers hfits (hpool (c * 64)) (hreads (c * 64)) data schema.rowStride n (c * 64)).mono
      (fun scratch hzero => by rw [hzero]; exact Jit.keeps_zero _ _ _ _) fun m S hm => hm.1
  rw [Engine.count, execute_of_expr hfront hschema, hscan, Option.map_some]

end Installed

/-! ## A small engine -/

/-- A field `"a"` at offset zero. -/
def sampleField : FieldDescriptor := ⟨[97], 0, 64, .uint64⟩

/-- An engine with the schema `"s"`, of rows that are eight bytes long. -/
def sampleEngine : Engine :=
  (Engine.new .portable fun _ _ => 0).registerSchema [115] [sampleField] 8

/-- The state of the compilers before anything is compiled. -/
def sampleState : CompileState := ⟨fun _ => {}, []⟩

/-- What installing an expression of its field in scalar mode makes of the small engine. -/
theorem sampleEngine_installed {g : Graph} {root n : NodeRef} (hload : g.loadNodes root = [n])
    (hvisit : n ∈ g.visits root) (hname : (g.node n).fieldName = [97])
    (hnodes : (g.listing root).length ≤ 512) :
    ∃ e st logic, sampleEngine.setExpression [115] Jit.standardHeap g (some root) .scalar
        sampleState = (e, st) ∧
      Installed e [115] logic g root st ∧ Fits g logic.mode root ∧ logic.mode = .scalar ∧
      (∀ order : IterationOrder, order.front e.exprLogic = some ([115], logic)) ∧
      e.schemaMetadata.lookup [115] = some ⟨8, [sampleField]⟩ ∧
      e.registry.getField [115] [97] = some sampleField ∧ st.pool = [] := by
  have hcompile := Jit.compile_scalar Jit.standardHeap g root sampleState
  have hres : Resolves [115] sampleEngine.registry g root :=
    resolves_of_loadNodes hload hvisit (by rw [hname]; rfl)
  have hinst := installed_setExpression hcompile hres
  rw [setExpression_some sampleEngine [115] hcompile] at hinst ⊢
  exact ⟨_, _, _, rfl, hinst, fun _ => ⟨hres.fields_le, hnodes⟩, rfl,
    fun order => order.front_insert _ fun k hk => absurd hk (AList.notMem_empty k), rfl, rfl, rfl⟩

end Api
end ApexEngine
