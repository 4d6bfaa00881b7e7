import ApexEngine.Api.History
import ApexEngine.Jit.PlaneReads

/-!
# The slots of an installed expression

The indices a kernel reads are assigned by the compiler, the descriptors they stand for
are found by `set_expression`, and nothing compares the two: an expression whose field
is not registered, or that has a ninth field in scalar mode, is installed with a slot
missing, and its kernel gets a null pointer or reads beyond the plane array
(`slots_unregistered`).

So the slots are bound (`SlotBinding`) in every state that a history of calls reaches
which only installs expressions that resolve (`slots_bound`).  What is bound stays
bound, since the registry never changes what it has once found.

What is handed to a kernel whose slots are bound covers what it reads: both loops store
an array for each bound slot, and no index that a kernel reads is left without one
(`HandsPlanes`).
-/

namespace ApexEngine
namespace Api

open A64 (Word)
open Core (Name SchemaRegistry FieldDescriptor)
open Compute (BitSlicer ColumnBuffer Data ShowsFields TaskConfig workerField)
open Jit (ExecutionMode Caller Graph NodeRef NodeMetas CompileState Scratch)

/-! ## What the registry keeps -/

/-- A registry that finds what another one finds. -/
def RegistryExtends (r r' : SchemaRegistry) : Prop :=
  ∀ s f d, r.getField s f = some d → r'.getField s f = some d

/-- **What is found stays found**, whatever is called. -/
theorem registryExtends_run (e : Engine) (calls : List Call) :
    RegistryExtends e.registry (e.run calls).registry := by
  refine Runs.run_inv_of_forall (I := fun e' : Engine => RegistryExtends e.registry e'.registry)
    (fun e' c h => ?_) (fun _ _ _ h => h) calls
  intro s f d hd
  rw [Engine.registry_step]
  cases c with
  | registerSchema s' fields stride =>
    exact SchemaRegistry.getField_registerSchema_of_some (h s f d hd) s' fields
  | setLogic => exact h s f d hd
  | setExpression => exact h s f d hd

theorem Resolves.extends {s : Name} {r r' : SchemaRegistry} {g : Graph} {root : NodeRef}
    (h : Resolves s r g root) (hext : RegistryExtends r r') : Resolves s r' g root where
  registered n hn := by
    obtain ⟨d, hd⟩ := Option.isSome_iff_exists.mp (h.registered n hn)
    rw [hext s _ d hd]
    rfl
  visited := h.visited
  fields_le := h.fields_le

/-! ## The binding of a logic -/

/-- The slots of a logic are bound: every plane its kernel reads has a slot below the size
of the array, with the descriptor of the fields that are read there; no slot is null;
and every field of the expression has the descriptor that is registered for it in the
slot of its index. -/
structure SlotBinding (registry : SchemaRegistry) (s : Name) (logic : ExprCompiledLogic) (g : Graph)
    (root : NodeRef) (ms : NodeMetas) : Prop where
  reads : ∀ off ∈ Jit.planeOffsets logic.mode logic.kernel, ∃ i field,
    off = BitVec.ofNat 64 (8 * i) ∧ i < logic.fields.length ∧ i < 8 ∧
    logic.fields.getD i none = some field ∧
    ∀ n ∈ g.loadNodes root, (ms n).fieldIdx = (i : ℕ) →
      registry.getField s (g.node n).fieldName = some field
  bound : ∀ i < logic.fields.length, (logic.fields.getD i none).isSome
  binds : Binds s registry g root ms logic.fields

section Binding

variable {s : Name} {registry : SchemaRegistry} {g : Graph} {root : NodeRef} {mode : ExecutionMode}
  {heap : ℕ → Word} {st compiled : CompileState} {kernel : List A64.Item}

/-- **An expression that resolves is installed with its slots bound.** -/
theorem slotBinding_of_resolves
    (hcompile : Jit.compile mode heap g (some root) st = (some kernel, compiled))
    (hres : Resolves s registry g root) :
    SlotBinding registry s ⟨kernel, slotsOf s registry g compiled.metas root, mode⟩ g root
      compiled.metas where
  reads off hoff := by
    obtain ⟨n, hn, i, hidx, rfl⟩ := Jit.exists_load_of_mem_planeOffsets hcompile hoff
    obtain ⟨i', field, hidx', hi, hslot, hfield⟩ := (binds_iff hcompile).mpr hres n hn
    obtain rfl : i' = i := by
      rw [hidx, Int.natCast_inj] at hidx'
      exact hidx'.symm
    obtain ⟨hlen, h8⟩ := Nat.lt_min.mp hi
    refine ⟨i', field, rfl, hlen, h8, hslot, fun m hm hidxm => ?_⟩
    rw [fieldName_eq_of_fieldIdx hcompile hm hn (hidxm.trans hidx.symm)]
    exact hfield
  bound := slotsOf_isSome hcompile hres
  binds := (binds_iff hcompile).mpr hres

theorem SlotBinding.extends {logic : ExprCompiledLogic} {ms : NodeMetas} {r' : SchemaRegistry}
    (h : SlotBinding registry s logic g root ms) (hext : RegistryExtends registry r') :
    SlotBinding r' s logic g root ms where
  reads off hoff := by
    obtain ⟨i, field, hi, hlen, h8, hslot, hfield⟩ := h.reads off hoff
    exact ⟨i, field, hi, hlen, h8, hslot, fun n hn hidx => hext s _ _ (hfield n hn hidx)⟩
  bound := h.bound
  binds n hn := by
    obtain ⟨i, field, hidx, hi, hslot, hfield⟩ := h.binds n hn
    exact ⟨i, field, hidx, hi, hslot, hext s _ _ hfield⟩

end Binding

/-! ## The planes that are handed over -/

/-- There is an array in every place that the kernel of a logic reads. -/
def ExprCompiledLogic.Covered (logic : ExprCompiledLogic) (planes : Jit.Planes) : Prop :=
  ∀ off ∈ Jit.planeOffsets logic.mode logic.kernel, ∃ i p,
    off = BitVec.ofNat 64 (8 * i) ∧ i < 8 ∧ planes i = some p

/-- The planes that `process_chunk_expr` hands to the kernel. -/
def Engine.chunkPlanes (e : Engine) (data : Data) (logic : ExprCompiledLogic)
    (ptr rowStride rowCount : ℕ) : Jit.Planes :=
  (Loop.forUp 0 (min logic.fields.length 8) 1 (chunkField e data logic ptr rowStride rowCount)
    ⟨e.fieldBuffers, fun _ => none⟩).fieldPlanes

/-- The planes that a worker hands to the kernel, unless it dereferences a null descriptor
before. -/
def workerPlanes (slicer : BitSlicer) (config : TaskConfig) (data : Data) (endRow row : ℕ)
    (buffers : ℕ → ColumnBuffer) : Option Jit.Planes :=
  (Loop.forUp 0 (min config.fields.length 8) 1
    (workerField slicer config data (row * config.rowStride) (min 64 (endRow - row)))
    (some ⟨buffers, fun _ => none⟩)).map fun staging => staging.fieldPlanes

/-- They are the planes that the kernel is called with. -/
theorem processChunkExpr_mask (e : Engine) (data : Data) (caller : Caller)
    (ptr rowStride rowCount : ℕ) (logic : ExprCompiledLogic) (scratchpad : Scratch) :
    (e.processChunkExpr data caller ptr rowStride rowCount logic scratchpad).map Prod.snd =
      (caller.callExpr logic.kernel (e.chunkPlanes data logic ptr rowStride rowCount)
        scratchpad).map Prod.fst := by
  simp only [Engine.processChunkExpr, Option.map_map]
  rfl

/-- So are those of a worker. -/
theorem workerBlock_count (callers : ℕ → Caller) (slicer : BitSlicer) (config : TaskConfig)
    (data : Data) (endRow row : ℕ) (s : Compute.WorkerState) :
    (Compute.workerBlock callers slicer config data endRow row s).map Prod.snd =
      (workerPlanes slicer config data endRow row s.fieldBuffers).bind fun planes =>
        ((callers row).callExpr config.kernel planes s.scratchpad).map fun r =>
          Compute.popcount r.1 := by
  simp only [Compute.workerBlock, workerPlanes, Option.map_bind, Option.bind_map]
  refine congrArg _ (funext fun staging => ?_)
  exact Option.map_map _ _ _

/-- **`execute` and `execute_parallel` hand no null plane to a kernel that reads it**, and no
worker dereferences a null descriptor, whatever the data and the buffers are. -/
structure HandsPlanes (e : Engine) : Prop where
  chunk : ∀ s logic, e.exprLogic.lookup s = some logic →
    ∀ buffers data ptr rowStride rowCount,
      logic.Covered (Engine.chunkPlanes { e with fieldBuffers := buffers } data logic ptr rowStride
        rowCount)
  worker : ∀ s logic, e.exprLogic.lookup s = some logic →
    ∀ schema slicer buffers data endRow row, ∃ planes,
      workerPlanes slicer (logic.config schema) data endRow row buffers = some planes ∧
        logic.Covered planes

theorem SlotBinding.covered {s : Name} {registry : SchemaRegistry} {logic : ExprCompiledLogic}
    {g : Graph} {root : NodeRef} {ms : NodeMetas} (h : SlotBinding registry s logic g root ms)
    {planes : Jit.Planes} {column : FieldDescriptor → ℕ → Word}
    (hshows : ShowsFields logic.mode logic.fields planes column) : logic.Covered planes := by
  intro off hoff
  obtain ⟨i, field, hi, -, h8, hslot, -⟩ := h.reads off hoff
  have hplane := hshows i h8
  rw [hslot] at hplane
  obtain ⟨p, hp, -⟩ := hplane
  exact ⟨i, p, hi, h8, hp⟩

/-! ## The binding of an engine -/

/-- Every installed logic is that of a call, and its slots are bound. -/
def SlotsBound (calls : List Call) (e : Engine) : Prop :=
  ∀ s logic, e.exprLogic.lookup s = some logic → ∃ heap g root st compiled,
    Call.setExpression s heap g (some root) logic.mode st ∈ calls ∧
    Jit.compile logic.mode heap g (some root) st = (some logic.kernel, compiled) ∧
    SlotBinding e.registry s logic g root compiled.metas

/-- **An engine whose slots are bound hands no null plane over.** -/
theorem SlotsBound.handsPlanes {calls : List Call} {e : Engine} (h : SlotsBound calls e) :
    HandsPlanes e where
  chunk s logic hlookup buffers data ptr rowStride rowCount := by
    obtain ⟨heap, g, root, st, compiled, -, -, hbinding⟩ := h s logic hlookup
    exact hbinding.covered (chunkFields_spec { e with fieldBuffers := buffers } data logic ptr
      rowStride rowCount buffers)
  worker s logic hlookup schema slicer buffers data endRow row := by
    obtain ⟨heap, g, root, st, compiled, -, -, hbinding⟩ := h s logic hlookup
    have hbound : ∀ f < min (logic.config schema).fields.length 8,
        ((logic.config schema).fields.getD f none).isSome :=
      fun f hf => hbinding.bound f (Nat.lt_min.mp hf).1
    obtain ⟨staging, hstaging, hshows⟩ := Compute.workerFields_spec hbound slicer data
      (row * schema.rowStride) (Nat.min_le_left 64 (endRow - row)) buffers
    refine ⟨staging.fieldPlanes, ?_, hbinding.covered hshows⟩
    show Option.map _ _ = _
    exact congrArg (Option.map fun s : Compute.Staging => s.fieldPlanes) hstaging

/-- A call that installs an expression only if it resolves. -/
def Resolving (e : Engine) : Call → Prop
  | .setExpression s _ g (some root) mode _ =>
      Jit.Accepts g mode root → Resolves s e.registry g root
  | _ => True

/-- A call that installs an expression. -/
theorem installsExpression_eq {e : Engine} {c : Call} {s : Name} {logic : ExprCompiledLogic}
    (h : e.installsExpression c = some (s, logic)) : ∃ heap g root st compiled,
      c = .setExpression s heap g (some root) logic.mode st ∧
      Jit.compile logic.mode heap g (some root) st = (some logic.kernel, compiled) ∧
      logic.fields = slotsOf s e.registry g compiled.metas root := by
  obtain ⟨p, hp, hlogic⟩ := Option.bind_eq_some_iff.mp h
  cases c with
  | registerSchema => exact absurd hp (by simp [Engine.installs])
  | setLogic s' f T =>
    obtain ⟨field, -, rfl⟩ := Option.map_eq_some_iff.mp hp
    exact absurd hlogic (by simp [Logic.asExpression])
  | setExpression s' heap g exprRoot mode st =>
    obtain ⟨root, rfl, hroot⟩ := Option.bind_eq_some_iff.mp hp
    obtain ⟨kernel, hkernel, rfl⟩ := Option.map_eq_some_iff.mp hroot
    simp only [Logic.asExpression, Option.map_some, Option.some.injEq, Prod.mk.injEq] at hlogic
    obtain ⟨rfl, rfl⟩ := hlogic
    exact ⟨heap, g, root, st, _, rfl, Prod.ext hkernel rfl, rfl⟩

/-- A run whose calls install only expressions that resolve leaves all slots bound. -/
theorem slotsBound_run (slicer : BitSlicer) (buffers : ℕ → ColumnBuffer) {past : List Call}
    (hpast : Runs.Along Engine.step Resolving (Engine.new slicer buffers) past) :
    SlotsBound past ((Engine.new slicer buffers).run past) := by
  intro s logic hlookup
  rw [Engine.exprLogic_run, Runs.lookup_assignAll] at hlookup
  have hlast : Runs.lastFor ((Engine.new slicer buffers).expressions past) s = some logic := by
    simpa [Engine.new] using hlookup
  have hmem := Runs.mem_of_lastFor hlast
  rw [Engine.expressions, Engine.installed, ← Runs.emitted_filterMap] at hmem
  obtain ⟨before, c, after, rfl, hemit⟩ := Runs.mem_emitted.mp hmem
  obtain ⟨heap, g, root, st, compiled, rfl, hcompile, hfields⟩ := installsExpression_eq hemit
  have hres : Resolves s (Runs.run Engine.step (Engine.new slicer buffers) before).registry g
      root :=
    (Runs.along_append.mp hpast).2.1
      ((Jit.compile_isSome_iff _ heap g root st).mp (by rw [hcompile]; rfl))
  have hbinding := slotBinding_of_resolves hcompile hres
  rw [← hfields] at hbinding
  refine ⟨heap, g, root, st, compiled, List.mem_append_right _ List.mem_cons_self, hcompile,
    hbinding.extends ?_⟩
  rw [Engine.run, Runs.run_append]
  exact registryExtends_run _ _

/-- **The slot binding invariant.**  In a run whose calls install only expressions that
resolve, the slots of every installed logic are bound in every state that is reached, and
what is executed there finds an array for every plane that it reads. -/
theorem slots_bound (slicer : Compute.BitSlicer) (buffers : ℕ → Compute.ColumnBuffer)
    {calls : List Call}
    (hresolving : Runs.Along Engine.step Resolving (Engine.new slicer buffers) calls) :
    ∀ past, past <+: calls → SlotsBound past ((Engine.new slicer buffers).run past) ∧
      HandsPlanes ((Engine.new slicer buffers).run past) := by
  rintro past ⟨rest, rfl⟩
  have hbound := slotsBound_run slicer buffers (Runs.along_append.mp hresolving).1
  exact ⟨hbound, hbound.handsPlanes⟩

/-- The calls of a client that registers one field and asks for the rows it exceeds five
in. -/
def sampleCalls (f : Name) : List Call :=
  [.registerSchema [115] [sampleField] 8,
   .setExpression [115] Jit.standardHeap (Jit.thresholdGraph (.ofString f) 5) (some 2) .scalar
      sampleState]

/-- The slots of the small engine's expression are bound. -/
theorem slots_bound_sample :
    SlotsBound (sampleCalls [97]) ((Engine.new .portable fun _ _ => 0).run (sampleCalls [97])) ∧
      HandsPlanes ((Engine.new .portable fun _ _ => 0).run (sampleCalls [97])) := by
  have hresolving : Runs.Along Engine.step Resolving (Engine.new .portable fun _ _ => 0)
      (sampleCalls [97]) := by
    refine ⟨trivial, fun _ => ?_, trivial⟩
    exact resolves_of_loadNodes (Jit.loadNodes_threshold _ _) (by decide) rfl
  exact slots_bound .portable (fun _ _ => 0) hresolving _ List.prefix_rfl

/-- **An unregistered field is installed.**  The kernel of `GT(Load("b"), Const(5))` reads
the first plane, and the logic has no slot at all. -/
theorem slots_unregistered : ¬ ∀ (slicer : Compute.BitSlicer)
    (buffers : ℕ → Compute.ColumnBuffer) (calls : List Call), ∀ past, past <+: calls →
      SlotsBound past ((Engine.new slicer buffers).run past) := by
  intro h
  have hbound := h .portable (fun _ _ => 0) (sampleCalls [98]) _ List.prefix_rfl
  have hcompile := Jit.compile_scalar Jit.standardHeap (Jit.thresholdGraph (.ofString [98]) 5) 2
    sampleState
  have hengine : (Engine.new .portable fun _ _ => 0).run (sampleCalls [98]) = _ :=
    congrArg Prod.fst (setExpression_some sampleEngine [115] hcompile)
  rw [hengine] at hbound
  obtain ⟨heap, g, root, st, compiled, -, -, hbinding⟩ := hbound [115] _ (AList.lookup_insert _)
  have hread : BitVec.ofNat 64 0 ∈ Jit.planeOffsets .scalar
      ((Jit.thresholdGraph (.ofString [98]) 5).scalarCode 2
        (Jit.scalarMetas (Jit.thresholdGraph (.ofString [98]) 5) 2 sampleState.metas)) :=
    List.mem_cons_self
  obtain ⟨i, field, -, hlen, -⟩ := hbinding.reads _ hread
  exact absurd hlen (Nat.not_lt_zero i)

end Api
end ApexEngine
