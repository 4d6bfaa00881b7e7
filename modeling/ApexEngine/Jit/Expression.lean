import ApexEngine.Jit.Assign
import ApexEngine.Jit.Emit

/-!
# `JitCompiler::compile_expression`

The bit-sliced code generator.  The code it emits saves the callee-saved registers,
sets every carry register to the carry its adder starts from, and then goes through
the bits twice.  The first loop goes up from bit 0 and runs the adders one after
another; each leaves its sum plane in the scratchpad, where later adders and the
comparisons find it.  The second loop goes down from bit 63 and runs the
comparisons, at most three, each in a pair of registers.  The results are the
conjunction of the masks of lanes decided greater.

Definitions follow the source line by line.  In particular an operand that is a
null pointer or a mask emits nothing, a shift emits nothing, and neither does an
equality in the second loop.
-/

namespace ApexEngine
namespace Jit

open A64 (Word Reg Item Instr)

/-- `carry_regs`. -/
def carryRegs (i : ℤ) : Reg :=
  [Reg.x21, .x22, .x23, .x24, .x25, .x26, .x27, .x28].getD i.toNat .x21

/-- `cmp_gt_regs`. -/
def cmpGtRegs (i : ℕ) : Reg := [Reg.x8, .x10, .x12].getD i .x8

/-- `cmp_eq_regs`. -/
def cmpEqRegs (i : ℕ) : Reg := [Reg.x9, .x11, .x13].getD i .x9

/-- `CircuitLibrary::emit_gt_64`. -/
def emitGt64 (aBit bBit gtMask eqMask : Reg) : List Instr :=
  [.bin .bic .x6 aBit (.reg bBit),
   .bin .and .x7 eqMask (.reg .x6),
   .bin .orr gtMask gtMask (.reg .x7),
   .bin .eor .x6 aBit (.reg bBit),
   .bin .bic eqMask eqMask (.reg .x6)]

section Emit

variable (g : Graph) (ms : NodeMetas) (constBitPlanes : NodeRef → Word)

/-- Load the word of the bit in `x15` from the planes in `x4`. -/
def loadBit (out : Reg) : List Instr :=
  [.bin .lsl .x14 .x15 (.imm 3),
   .ldr out (.index .x4 .x14 0)]

/-- Load the word of the bit in `x15` from a node's slot. -/
def loadSlot (n : NodeRef) (out : Reg) : List Instr :=
  [.bin .lsl .x14 .x15 (.imm 3),
   .bin .add .x14 .x14 (.imm (BitVec.ofInt 64 ((ms n).slotId * 512))),
   .ldr out (.index .x20 .x14 0)]

/-- Load the plane of an operand at the bit in `x15`: the lambda `get_operand_at_bit`
of the first loop, and `get_bit` of the second, which is the same. -/
def getOperandAtBit (operand : Option NodeRef) (out : Reg) : List Instr :=
  match operand with
  | none => []
  | some n =>
      match g.kind n with
      | .load => .ldr .x4 (.offset .x19 (BitVec.ofInt 64 ((ms n).fieldIdx * 8))) :: loadBit out
      | .const => emitMovImm64 .x4 (constBitPlanes n) ++ loadBit out
      | _ => if (ms n).resultKind = .bitplane ∧ 0 ≤ (ms n).slotId then loadSlot ms n out else []

/-- The store of an adder's result to its slot. -/
def storeResult (n : NodeRef) : List Instr :=
  [.bin .lsl .x14 .x15 (.imm 3),
   .bin .add .x14 .x14 (.imm (BitVec.ofInt 64 ((ms n).slotId * 512))),
   .str .x5 (.index .x20 .x14 0)]

/-- The full adder on `x2` and `x3`. -/
def emitAdd (carry : Reg) : List Instr :=
  [.bin .eor .x6 .x2 (.reg .x3),
   .bin .eor .x5 .x6 (.reg carry),
   .bin .and .x7 .x2 (.reg .x3),
   .bin .and .x14 .x6 (.reg carry),
   .bin .orr carry .x7 (.reg .x14)]

/-- The full adder on `x2` and the complement of `x3`. -/
def emitSub (carry : Reg) : List Instr :=
  [.mvn .x6 .x3,
   .bin .eor .x7 .x2 (.reg .x6),
   .bin .eor .x5 .x7 (.reg carry),
   .bin .and .x14 .x2 (.reg .x6),
   .bin .and .x6 carry (.reg .x7),
   .bin .orr carry .x14 (.reg .x6)]

/-- The first loop's code for one arithmetic node. -/
def arithmeticBlock (n : NodeRef) : List Instr :=
  if (g.kind n).isAdder then
    getOperandAtBit g ms constBitPlanes (g.node n).left .x2 ++
    getOperandAtBit g ms constBitPlanes (g.node n).right .x3 ++
    (if g.kind n = .add then emitAdd (carryRegs (ms n).carryReg)
      else emitSub (carryRegs (ms n).carryReg)) ++
    storeResult ms n
  else []

/-- The initialization of one carry register. -/
def carryInit (n : NodeRef) : List Instr :=
  if 0 ≤ (ms n).carryReg then
    match g.kind n with
    | .add => [.mov (carryRegs (ms n).carryReg) (.imm 0)]
    | .sub => [.mov (carryRegs (ms n).carryReg) (.imm 1)]
    | _ => []
  else []

/-- `collect_comparisons`. -/
def collectComparisons (root : NodeRef) : List NodeRef :=
  g.fold (fun n left right _ =>
    match g.kind n with
    | .gt | .lt | .eq => [n]
    | .and => left.getD [] ++ right.getD []
    | _ => []) root

/-- The second loop's code for the comparison with index `i`. -/
def comparisonBlockAt (n : NodeRef) (i : ℕ) : List Instr :=
  match g.kind n with
  | .lt =>
      getOperandAtBit g ms constBitPlanes (g.node n).left .x2 ++
      getOperandAtBit g ms constBitPlanes (g.node n).right .x3 ++
      emitGt64 .x3 .x2 (cmpGtRegs i) (cmpEqRegs i)
  | .gt =>
      getOperandAtBit g ms constBitPlanes (g.node n).left .x2 ++
      getOperandAtBit g ms constBitPlanes (g.node n).right .x3 ++
      emitGt64 .x2 .x3 (cmpGtRegs i) (cmpEqRegs i)
  | _ => []

/-- The registers of one comparison at the start. -/
def comparisonInit (i : ℕ) : List Instr :=
  [.mov (cmpGtRegs i) (.imm 0), .mvn (cmpEqRegs i) .xzr]

/-- The call frame: six pairs of registers are pushed. -/
def expressionPrologue : List Instr :=
  [.stp .x29 .x30 (.pre .sp (-16)),
   .mov .x29 (.reg .sp),
   .stp .x19 .x20 (.pre .sp (-16)),
   .stp .x21 .x22 (.pre .sp (-16)),
   .stp .x23 .x24 (.pre .sp (-16)),
   .stp .x25 .x26 (.pre .sp (-16)),
   .stp .x27 .x28 (.pre .sp (-16)),
   .mov .x19 (.reg .x0),
   .mov .x20 (.reg .x1)]

def expressionEpilogue : List Instr :=
  [.ldp .x27 .x28 (.post .sp 16),
   .ldp .x25 .x26 (.post .sp 16),
   .ldp .x23 .x24 (.post .sp 16),
   .ldp .x21 .x22 (.post .sp 16),
   .ldp .x19 .x20 (.post .sp 16),
   .ldp .x29 .x30 (.post .sp 16)]

/-- The conjunction of the masks of the comparisons, or all ones without any. -/
def foldMasks (numComparisons : ℕ) : List Instr :=
  if 1 ≤ numComparisons then
    .mov .x0 (.reg (cmpGtRegs 0)) ::
      (List.range (min numComparisons 3 - 1)).map fun i =>
        .bin .and .x0 .x0 (.reg (cmpGtRegs (i + 1)))
  else [.mov .x0 (.imm (-1))]

/-- The body of the first loop. -/
def phase1Body (arithmeticNodes : List NodeRef) : List Instr :=
  arithmeticNodes.flatMap (arithmeticBlock g ms constBitPlanes) ++
    [.bin .add .x15 .x15 (.imm 1)]

/-- The body of the second loop, for the comparisons that have registers. -/
def phase2Body (comparisonNodes : List NodeRef) : List Instr :=
  (comparisonNodes.take 3).zipIdx.flatMap
      (fun p => comparisonBlockAt g ms constBitPlanes p.1 p.2) ++
    [.bin .sub .x15 .x15 (.imm 1)]

/-- What is emitted before the first loop. -/
def phase1Entry (arithmeticNodes : List NodeRef) : List Instr :=
  expressionPrologue ++ arithmeticNodes.flatMap (carryInit g ms) ++ [.mov .x15 (.imm 0)]

/-- What is emitted between the loops. -/
def phase2Entry (numComparisons : ℕ) : List Instr :=
  (List.range (min numComparisons 3)).flatMap comparisonInit ++ [.mov .x15 (.imm 63)]

/-- The code that `compile_expression` emits. -/
def emitExpression (arithmeticNodes comparisonNodes : List NodeRef) : List Item :=
  (phase1Entry g ms arithmeticNodes).map .instr ++
  A64.loopItems 0 1 [.cmp .x15 (.imm 64)] .hs (phase1Body g ms constBitPlanes arithmeticNodes) ++
  (phase2Entry comparisonNodes.length).map .instr ++
  A64.loopItems 2 3 [.cmp .x15 (.imm 0)] .lt (phase2Body g ms constBitPlanes comparisonNodes) ++
  (foldMasks comparisonNodes.length ++ expressionEpilogue).map .instr ++
  [.ret .x30]

end Emit

/-- What outlives a call of a compiler besides the kernel: the metadata of the nodes
and the constant pool of the thread. -/
structure CompileState where
  metas : NodeMetas
  pool : ConstPool

/-- `JitCompiler::compile_expression`.  The registry and the schema name are not
used by it; code added to the runtime is the code. -/
def compileExpression (heap : ℕ → Word) (g : Graph) (root : Option NodeRef) (st : CompileState) :
    Option (List Item) × CompileState :=
  match root with
  | none => (none, st)
  | some root =>
      let analyzer := analyze g root st.metas
      match assignFields g (8 ≤ ·) analyzer.loadNodes ∅ analyzer.metas with
      | .error ms => (none, { st with metas := ms })
      | .ok ms =>
          let (constBitPlanes, pool, ms) :=
            assignConsts heap g analyzer.constNodes (fun _ => 0) st.pool ms
          match assignSlots analyzer.arithmeticNodes {} ms with
          | .error ms => (none, ⟨ms, pool⟩)
          | .ok ms =>
              match assignCarries g analyzer.arithmeticNodes 0 ms with
              | .error ms => (none, ⟨ms, pool⟩)
              | .ok ms =>
                  (some (emitExpression g ms constBitPlanes analyzer.arithmeticNodes
                    (collectComparisons g root)), ⟨ms, pool⟩)

/-! ## What a compilation assigns -/

/-- The distinct field names of an expression, in the order of their indices. -/
def Graph.fieldNames (g : Graph) (root : NodeRef) : List Core.Name :=
  distinctNames g [] (g.loadNodes root)

theorem Graph.name_mem_fieldNames {g : Graph} {root n : NodeRef} (hn : n ∈ g.listing root)
    (hk : g.kind n = .load) : (g.node n).fieldName ∈ g.fieldNames root :=
  name_mem_distinctNames ((g.mem_loadNodes root).mpr ⟨hn, hk⟩)

/-- Every index that was given out is the index of a LOAD node. -/
theorem exists_load_of_lt {g : Graph} {root : NodeRef} {i : ℕ} (hi : i < (g.fieldNames root).length) :
    ∃ n ∈ g.loadNodes root, (g.fieldNames root).idxOf (g.node n).fieldName = i := by
  rcases mem_distinctNames (List.getElem_mem hi) with hnil | ⟨n, hn, hname⟩
  · exact absurd hnil (by simp)
  · refine ⟨n, hn, ?_⟩
    rw [hname]
    exact (nodup_distinctNames List.nodup_nil _).idxOf_getElem i hi

/-- The adders of an expression, in the order of their carry registers. -/
def Graph.adderNodes (g : Graph) (root : NodeRef) : List NodeRef := adders g (g.arithmeticNodes root)

/-- The metadata of a listed node once the compiler is done with it. -/
structure Allocated (g : Graph) (root : NodeRef) (ms : NodeMetas) (constBitPlanes : NodeRef → Word)
    (pool : ConstPool) : Prop where
  resultKind : ∀ n ∈ g.listing root, (ms n).resultKind = (g.kind n).resultKind
  fieldIdx : ∀ n ∈ g.listing root, g.kind n = .load →
    (ms n).fieldIdx = ((g.fieldNames root).idxOf (g.node n).fieldName : ℕ)
  konst : ∀ n ∈ g.listing root, g.kind n = .const →
    ((g.node n).constValue, constBitPlanes n) ∈ pool
  slotId : ∀ n ∈ g.arithmeticNodes root, (ms n).slotId = ((g.arithmeticNodes root).idxOf n : ℕ)
  carryReg : ∀ n ∈ g.adderNodes root,
    (ms n).carryReg = ((g.adderNodes root).idxOf n : ℕ)

/-- The code for a root with given allocations. -/
def Graph.expressionCode (g : Graph) (root : NodeRef) (ms : NodeMetas)
    (constBitPlanes : NodeRef → Word) : List Item :=
  emitExpression g ms constBitPlanes (g.arithmeticNodes root) (collectComparisons g root)

/-- The metadata after a compilation, loop by loop. -/
def compiledMetas (g : Graph) (root : NodeRef) (metas : NodeMetas) : NodeMetas :=
  ((((metas.modifyAll (g.listing root) fun n x => { x with resultKind := (g.kind n).resultKind }
    ).modifyAll (g.loadNodes root) fun n x =>
      { x with fieldIdx := ((g.fieldNames root).idxOf (g.node n).fieldName : ℕ) }
    ).modifyAll (g.constNodes root) fun _ x => { x with fieldIdx := -2 }
    ).modifyAll (g.arithmeticNodes root) fun n x =>
      { x with slotId := ((g.arithmeticNodes root).idxOf n : ℕ) }
    ).modifyAll (g.adderNodes root) fun n x =>
      { x with carryReg := ((g.adderNodes root).idxOf n : ℕ) }

/-- Each field of the metadata is the one its own loop wrote. -/
theorem allocated_compiledMetas {g : Graph} {root : NodeRef} (metas : NodeMetas)
    {constBitPlanes : NodeRef → Word} {pool : ConstPool}
    (hmem : ∀ n ∈ g.constNodes root, ((g.node n).constValue, constBitPlanes n) ∈ pool) :
    Allocated g root (compiledMetas g root metas) constBitPlanes pool where
  resultKind n hn := by
    simp only [compiledMetas, NodeMetas.modifyAll, hn, if_true]
    split_ifs <;> rfl
  fieldIdx n hn hk := by
    have h2 : n ∈ g.loadNodes root := (g.mem_loadNodes root).mpr ⟨hn, hk⟩
    have h3 : n ∉ g.constNodes root := by simp [g.mem_constNodes root, hk]
    have h4 : n ∉ g.arithmeticNodes root := by
      simp [g.mem_arithmeticNodes root, hk, NodeKind.isArithmetic]
    have h5 : n ∉ g.adderNodes root := fun h => h4 (mem_adders.mp h).1
    simp only [compiledMetas, NodeMetas.modifyAll, h2, h3, h4, h5, if_true, if_false]
  konst n hn hk := hmem n ((g.mem_constNodes root).mpr ⟨hn, hk⟩)
  slotId n hn := by
    simp only [compiledMetas, NodeMetas.modifyAll, hn, if_true]
    split_ifs <;> rfl
  carryReg n hn := by
    simp only [compiledMetas, NodeMetas.modifyAll, hn, if_true]

/-- `const_bit_planes` of an expression compiled with a given pool: the address of the planes
of each of its constants. -/
def Graph.constBitPlanes (g : Graph) (root : NodeRef) (heap : ℕ → Word) (pool : ConstPool) :
    NodeRef → Word :=
  (assignConsts heap g (g.constNodes root) (fun _ => 0) pool fun _ => {}).1

/-- The pool with the constants of an expression. -/
def Graph.constPool (g : Graph) (root : NodeRef) (heap : ℕ → Word) (pool : ConstPool) : ConstPool :=
  (assignConsts heap g (g.constNodes root) (fun _ => 0) pool fun _ => {}).2.1

section Compile

variable (heap : ℕ → Word) (g : Graph) (root : NodeRef) (st : CompileState)

/-- Every constant of the expression is in the pool, at the address its node is given. -/
theorem Graph.mem_constPool (pool : ConstPool) {n : NodeRef} (hn : n ∈ g.constNodes root) :
    ((g.node n).constValue, g.constBitPlanes root heap pool n) ∈ g.constPool root heap pool :=
  assignConsts_mem heap g (g.nodup_constNodes root) _ _ _ hn

/-- **A compilation within the limits.**  At most eight distinct fields and eight
arithmetic nodes: there is a kernel, and this is what is compiled. -/
theorem compileExpression_eq (hfields : (g.fieldNames root).length ≤ 8)
    (harith : (g.arithmeticNodes root).length ≤ 8) :
    compileExpression heap g (some root) st =
      (some (g.expressionCode root (compiledMetas g root st.metas)
          (g.constBitPlanes root heap st.pool)),
        ⟨compiledMetas g root st.metas, g.constPool root heap st.pool⟩) := by
  obtain ⟨hload, hconst, harithEq, hmetas⟩ := g.analyze_eq root st.metas
  have hmetas' : (analyze g root st.metas).metas = st.metas.modifyAll (g.listing root)
      fun n x => { x with resultKind := (g.kind n).resultKind } := hmetas
  generalize hms₁ : (analyze g root st.metas).metas = ms₁ at hmetas'
  obtain ⟨ms₂, hms₂⟩ : ∃ ms₂, ms₂ = ms₁.modifyAll (g.loadNodes root) fun n x =>
      { x with fieldIdx := ((g.fieldNames root).idxOf (g.node n).fieldName : ℕ) } := ⟨_, rfl⟩
  obtain ⟨ms₃, hms₃⟩ : ∃ ms₃, ms₃ = ms₂.modifyAll (g.constNodes root) fun _ x =>
      { x with fieldIdx := -2 } := ⟨_, rfl⟩
  obtain ⟨ms₄, hms₄⟩ : ∃ ms₄, ms₄ = ms₃.modifyAll (g.arithmeticNodes root) fun n x =>
      { x with slotId := ((g.arithmeticNodes root).idxOf n : ℕ) } := ⟨_, rfl⟩
  have hfinal : compiledMetas g root st.metas =
      ms₄.modifyAll (g.adderNodes root) fun n x =>
        { x with carryReg := ((g.adderNodes root).idxOf n : ℕ) } := by
    rw [hms₄, hms₃, hms₂, hmetas', compiledMetas]
  have hf : assignFields g (8 ≤ ·) (g.loadNodes root) ∅ ms₁ = .ok ms₂ := by
    rw [hms₂]
    refine assignFields_ok _ ms₁ Numbering.empty (g.nodup_loadNodes root) fun k hk => ?_
    change k < (g.fieldNames root).length at hk
    exact decide_eq_false (by omega)
  have hcm := assignConsts_metas heap g (g.nodup_constNodes root) (fun _ => 0) st.pool ms₂
  rw [← hms₃] at hcm
  have hs : assignSlots (g.arithmeticNodes root) {} ms₃ = .ok ms₄ := by
    have := assignSlots_ok 0 ms₃ (g.nodup_arithmeticNodes root) (by omega)
    simp only [Nat.zero_add, ← hms₄] at this
    exact this
  have hc : assignCarries g (g.arithmeticNodes root) 0 ms₄ =
      .ok (compiledMetas g root st.metas) := by
    have := assignCarries_ok g 0 ms₄ (g.nodup_arithmeticNodes root) (by omega)
    simp only [Nat.zero_add] at this
    rw [this, hfinal]
    rfl
  obtain ⟨hplanes, hpool⟩ := assignConsts_of_metas heap g (g.constNodes root) (fun _ => 0)
    st.pool ms₂ fun _ => {}
  simp only [compileExpression, hload, hms₁, hf, hconst, hcm, harithEq, hs, hc, hplanes, hpool]
  rfl

/-- The resources of a kernel are those of `Allocated`. -/
theorem compileExpression_ok (hfields : (g.fieldNames root).length ≤ 8)
    (harith : (g.arithmeticNodes root).length ≤ 8) :
    ∃ constBitPlanes pool,
      compileExpression heap g (some root) st =
        (some (g.expressionCode root (compiledMetas g root st.metas) constBitPlanes),
          ⟨compiledMetas g root st.metas, pool⟩) ∧
      Allocated g root (compiledMetas g root st.metas) constBitPlanes pool :=
  ⟨_, _, compileExpression_eq heap g root st hfields harith,
    allocated_compiledMetas st.metas fun _ hn => g.mem_constPool heap root st.pool hn⟩

/-- **Beyond a limit there is no kernel.** -/
theorem compileExpression_none
    (h : 8 < (g.fieldNames root).length ∨ 8 < (g.arithmeticNodes root).length) :
    (compileExpression heap g (some root) st).1 = none := by
  obtain ⟨hload, hconst, harithEq, -⟩ := g.analyze_eq root st.metas
  simp only [compileExpression, hload, hconst, harithEq]
  rcases hf : assignFields g (8 ≤ ·) (g.loadNodes root) ∅ (analyze g root st.metas).metas with ms | ms
  · rfl
  · simp only
    rcases h with h | h
    · obtain ⟨ms', hms'⟩ := @assignFields_error g [] (8 ≤ ·) 8 (by simp) (g.loadNodes root) ∅
        (analyze g root st.metas).metas Numbering.empty (by simp) h
      rw [hms'] at hf
      exact absurd hf (by simp)
    · obtain ⟨ms', hms'⟩ := assignSlots_error 0
        (assignConsts heap g (g.constNodes root) (fun _ => 0) st.pool ms).2.2
        (by omega) (by omega : 8 < 0 + (g.arithmeticNodes root).length)
      rw [show ({} : ScratchpadManager) = .afterAllocs 0 from rfl, hms']

/-- With a kernel or without, a compilation only adds to the pool. -/
theorem compileExpression_extends (root : Option NodeRef) :
    st.pool <+: (compileExpression heap g root st).2.pool := by
  cases root with
  | none => exact List.prefix_rfl
  | some root =>
    simp only [compileExpression]
    cases assignFields g (8 ≤ ·) (analyze g root st.metas).loadNodes ∅
        (analyze g root st.metas).metas with
    | error ms => exact List.prefix_rfl
    | ok ms =>
      have hext := assignConsts_extends heap g (analyze g root st.metas).constNodes (fun _ => 0)
        st.pool ms
      simp only
      split
      · exact hext
      · split <;> exact hext

/-- A kernel means the limits were kept. -/
theorem limits_of_compileExpression {code : List Item} {st' : CompileState}
    (h : compileExpression heap g (some root) st = (some code, st')) :
    (g.fieldNames root).length ≤ 8 ∧ (g.arithmeticNodes root).length ≤ 8 := by
  by_contra hlim
  have := compileExpression_none heap g root st (by omega)
  rw [h] at this
  exact absurd this (by simp)

end Compile
end Jit
end ApexEngine
