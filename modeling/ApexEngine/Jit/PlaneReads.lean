import ApexEngine.Jit.Compiled

/-!
# Which planes a kernel reads

A kernel takes the address of a field's planes from the plane array, at an offset that
is part of the instruction.  So the field indices a kernel reads can be read off its
code (`planeOffsets`), without running it, and they are the indices of the LOAD nodes of
its expression (`exists_load_of_mem_planeOffsets`).
-/

namespace ApexEngine
namespace Jit

open A64 (Word Reg Instr Item)

/-! ## Offsets in code -/

/-- The offset of a load from the array whose address is in a register. -/
def loadOffset (base : Reg) : Instr → Option Word
  | .ldr _ (.offset b imm) => if b = base then some imm else none
  | _ => none

/-- The offsets of the loads of a block. -/
def loadOffsets (base : Reg) (is : List Instr) : List Word := is.filterMap (loadOffset base)

/-- The register that has the address of the plane array in the loops of a kernel. -/
def planesReg : ExecutionMode → Reg
  | .bitSliced => .x19
  | .scalar => .x0

/-- The offsets at which a kernel reads the plane array. -/
def planeOffsets (mode : ExecutionMode) (code : List Item) : List Word :=
  code.filterMap fun
    | .instr i => loadOffset (planesReg mode) i
    | _ => none

section Offsets

variable {base : Reg}

@[simp] theorem loadOffsets_nil : loadOffsets base [] = [] := rfl

@[simp] theorem loadOffsets_append (is js : List Instr) :
    loadOffsets base (is ++ js) = loadOffsets base is ++ loadOffsets base js :=
  List.filterMap_append

theorem loadOffsets_cons (i : Instr) (is : List Instr) :
    loadOffsets base (i :: is) = (loadOffset base i).toList ++ loadOffsets base is := by
  rw [loadOffsets, loadOffsets, List.filterMap_cons]
  cases loadOffset base i <;> rfl

theorem mem_loadOffsets_flatMap {α : Type} {xs : List α} {f : α → List Instr} {off : Word} :
    off ∈ loadOffsets base (xs.flatMap f) ↔ ∃ x ∈ xs, off ∈ loadOffsets base (f x) := by
  rw [loadOffsets, List.filterMap_flatMap, List.mem_flatMap]
  rfl

theorem planeOffsets_append (mode : ExecutionMode) (code code' : List Item) :
    planeOffsets mode (code ++ code') = planeOffsets mode code ++ planeOffsets mode code' :=
  List.filterMap_append

theorem planeOffsets_map_instr (mode : ExecutionMode) (is : List Instr) :
    planeOffsets mode (is.map .instr) = loadOffsets (planesReg mode) is := by
  rw [planeOffsets, List.filterMap_map]
  rfl

/-- A loop reads what its test and its body read. -/
theorem planeOffsets_loopItems (mode : ExecutionMode) (head exit : ℕ) (test body : List Instr)
    (cond : A64.Cond) :
    planeOffsets mode (A64.loopItems head exit test cond body) =
      loadOffsets (planesReg mode) test ++ loadOffsets (planesReg mode) body := by
  simp only [A64.loopItems, planeOffsets_append, planeOffsets_map_instr]
  simp [planeOffsets]

end Offsets

/-! ## The blocks of the compilers -/

section Blocks

variable {g : Graph} {root : NodeRef} {ms : NodeMetas} {off : Word}

/-- An offset of a field that the expression loads. -/
def IsFieldOffset (g : Graph) (root : NodeRef) (ms : NodeMetas) (off : Word) : Prop :=
  ∃ n ∈ g.loadNodes root, off = BitVec.ofInt 64 ((ms n).fieldIdx * 8)

theorem loadOffsets_emitMovImm64 (base dst : Reg) (imm : Word) :
    loadOffsets base (emitMovImm64 dst imm) = [] := rfl

/-- An operand of the bit-sliced code. -/
theorem isFieldOffset_getOperandAtBit {konst : NodeRef → Word} {operand : Option NodeRef} {out : Reg}
    (hmem : ∀ n, operand = some n → n ∈ g.listing root)
    (h : off ∈ loadOffsets .x19 (getOperandAtBit g ms konst operand out)) :
    IsFieldOffset g root ms off := by
  cases operand with
  | none => exact absurd h List.not_mem_nil
  | some n =>
    simp only [getOperandAtBit] at h
    split at h
    · rename_i hk
      rw [loadOffsets_cons] at h
      exact ⟨n, (g.mem_loadNodes root).mpr ⟨hmem n rfl, hk⟩, List.mem_singleton.mp h⟩
    · rw [loadOffsets_append, loadOffsets_emitMovImm64] at h
      exact absurd h List.not_mem_nil
    · split at h
      · exact absurd h List.not_mem_nil
      · exact absurd h List.not_mem_nil

theorem isFieldOffset_arithmeticBlock {konst : NodeRef → Word} {n : NodeRef}
    (hn : n ∈ g.listing root) (h : off ∈ loadOffsets .x19 (arithmeticBlock g ms konst n)) :
    IsFieldOffset g root ms off := by
  unfold arithmeticBlock at h
  split at h
  · have hop : loadOffsets .x19 (if g.kind n = .add then emitAdd (carryRegs (ms n).carryReg)
        else emitSub (carryRegs (ms n).carryReg)) = [] := by split <;> rfl
    have hstore : loadOffsets .x19 (storeResult ms n) = [] := rfl
    simp only [loadOffsets_append, hop, hstore, List.append_nil, List.mem_append] at h
    rcases h with h | h
    · exact isFieldOffset_getOperandAtBit (fun c hc => Graph.mem_listing_left hn hc) h
    · exact isFieldOffset_getOperandAtBit (fun c hc => Graph.mem_listing_right hn hc) h
  · exact absurd h List.not_mem_nil

theorem isFieldOffset_comparisonBlockAt {konst : NodeRef → Word} {n : NodeRef} {i : ℕ}
    (hn : n ∈ g.listing root) (h : off ∈ loadOffsets .x19 (comparisonBlockAt g ms konst n i)) :
    IsFieldOffset g root ms off := by
  have hgt : ∀ a b gt eq, loadOffsets .x19 (emitGt64 a b gt eq) = [] := fun _ _ _ _ => rfl
  have hoperands : off ∈ loadOffsets .x19 (getOperandAtBit g ms konst (g.node n).left .x2) ∨
      off ∈ loadOffsets .x19 (getOperandAtBit g ms konst (g.node n).right .x3) := by
    unfold comparisonBlockAt at h
    split at h
    · simpa only [loadOffsets_append, hgt, List.append_nil, List.mem_append] using h
    · simpa only [loadOffsets_append, hgt, List.append_nil, List.mem_append] using h
    · exact absurd h List.not_mem_nil
  rcases hoperands with h | h
  · exact isFieldOffset_getOperandAtBit (fun c hc => Graph.mem_listing_left hn hc) h
  · exact isFieldOffset_getOperandAtBit (fun c hc => Graph.mem_listing_right hn hc) h

/-- **The bit-sliced code** reads planes of LOAD nodes only. -/
theorem isFieldOffset_expressionCode {konst : NodeRef → Word}
    (h : off ∈ planeOffsets .bitSliced (g.expressionCode root ms konst)) :
    IsFieldOffset g root ms off := by
  have hentry : loadOffsets .x19 (phase1Entry g ms (g.arithmeticNodes root)) = [] := by
    have hinit : ∀ n, loadOffsets .x19 (carryInit g ms n) = [] := by
      intro n
      unfold carryInit
      split
      · split <;> rfl
      · rfl
    refine List.eq_nil_iff_forall_not_mem.mpr fun off hoff => ?_
    simp only [phase1Entry, loadOffsets_append, List.mem_append, mem_loadOffsets_flatMap, hinit] at hoff
    rcases hoff with (hoff | ⟨n, -, hoff⟩) | hoff
    · exact absurd hoff List.not_mem_nil
    · exact absurd hoff List.not_mem_nil
    · exact absurd hoff List.not_mem_nil
  have hbetween : loadOffsets .x19 (phase2Entry (collectComparisons g root).length) = [] := by
    refine List.eq_nil_iff_forall_not_mem.mpr fun off hoff => ?_
    simp only [phase2Entry, loadOffsets_append, List.mem_append, mem_loadOffsets_flatMap] at hoff
    rcases hoff with ⟨i, -, hoff⟩ | hoff
    · exact absurd hoff List.not_mem_nil
    · exact absurd hoff List.not_mem_nil
  have hexit : loadOffsets .x19
      (foldMasks (collectComparisons g root).length ++ expressionEpilogue) = [] := by
    have hfold : ∀ k, loadOffsets .x19 (foldMasks k) = [] := by
      intro k
      unfold foldMasks
      split
      · rw [loadOffsets_cons, loadOffsets, List.filterMap_map]
        simp [loadOffset, Function.comp_def]
      · rfl
    rw [loadOffsets_append, hfold]
    rfl
  simp only [Graph.expressionCode, emitExpression, planeOffsets_append, planeOffsets_map_instr,
    planeOffsets_loopItems, planesReg, hentry, hbetween, hexit] at h
  simp only [phase1Body, phase2Body, loadOffsets_append, List.mem_append,
    mem_loadOffsets_flatMap] at h
  rcases h with (((((h | h | ⟨n, hn, h⟩ | h) | h) | h | ⟨⟨n, i⟩, hn, h⟩ | h) | h) | h)
  · exact absurd h List.not_mem_nil
  · exact absurd h List.not_mem_nil
  · exact isFieldOffset_arithmeticBlock ((g.mem_arithmeticNodes root).mp hn).1 h
  · exact absurd h List.not_mem_nil
  · exact absurd h List.not_mem_nil
  · exact absurd h List.not_mem_nil
  · have hmem := List.mem_of_mem_take (List.fst_mem_of_mem_zipIdx hn)
    exact isFieldOffset_comparisonBlockAt ((g.mem_listing root).mpr (mem_collectComparisons hmem).1) h
  · exact absurd h List.not_mem_nil
  · exact absurd h List.not_mem_nil
  · exact absurd h List.not_mem_nil

/-- An operand of the scalar code. -/
theorem isFieldOffset_getOperand {allNodes : List NodeRef} {i : ℕ} {operand : Option NodeRef}
    {out : Reg} (hmem : ∀ n, operand = some n → n ∈ g.listing root)
    (h : off ∈ loadOffsets .x0 (getOperand g ms allNodes i operand out)) :
    IsFieldOffset g root ms off := by
  cases operand with
  | none => exact absurd h List.not_mem_nil
  | some n =>
    simp only [getOperand] at h
    split at h
    · rename_i hk
      rw [loadOffsets_cons] at h
      exact ⟨n, (g.mem_loadNodes root).mpr ⟨hmem n rfl, hk⟩, List.mem_singleton.mp h⟩
    · rw [loadOffsets_emitMovImm64] at h
      exact absurd h List.not_mem_nil
    · exact absurd h List.not_mem_nil

theorem isFieldOffset_scalarBlock {allNodes : List NodeRef} {n : NodeRef} {i : ℕ}
    (hn : n ∈ g.listing root) (h : off ∈ loadOffsets .x0 (scalarBlock g ms allNodes n i)) :
    IsFieldOffset g root ms off := by
  simp only [scalarBlock, loadOffsets_append, List.mem_append] at h
  rcases h with ((h | h) | h) | h
  · exact isFieldOffset_getOperand (fun c hc => Graph.mem_listing_left hn hc) h
  · exact isFieldOffset_getOperand (fun c hc => Graph.mem_listing_right hn hc) h
  · unfold scalarOp at h
    split at h
    case h_1 | h_2 =>
      refine isFieldOffset_getOperand (fun c hc => ?_) h
      rw [← Option.some.inj hc]
      exact hn
    all_goals exact absurd h List.not_mem_nil
  · exact absurd h List.not_mem_nil

/-- **The scalar code** reads planes of LOAD nodes only. -/
theorem isFieldOffset_scalarCode (h : off ∈ planeOffsets .scalar (g.scalarCode root ms)) :
    IsFieldOffset g root ms off := by
  simp only [Graph.scalarCode, emitScalar, planeOffsets_append, planeOffsets_map_instr,
    planeOffsets_loopItems, planesReg, scalarBody, loadOffsets_append, List.mem_append,
    mem_loadOffsets_flatMap] at h
  rcases h with ((h | h | ⟨⟨n, i⟩, hn, h⟩ | h) | h) | h
  · exact absurd h List.not_mem_nil
  · exact absurd h List.not_mem_nil
  · exact isFieldOffset_scalarBlock (List.fst_mem_of_mem_zipIdx hn) h
  · exact absurd h List.not_mem_nil
  · exact absurd h List.not_mem_nil
  · exact absurd h List.not_mem_nil

end Blocks

/-- **The planes a kernel reads are those of its fields**: every offset is the index of a
LOAD node of the expression, times the size of a pointer. -/
theorem exists_load_of_mem_planeOffsets {mode : ExecutionMode} {heap : ℕ → Word} {g : Graph}
    {root : NodeRef} {st st' : CompileState} {code : List Item} {off : Word}
    (hcompile : compile mode heap g (some root) st = (some code, st'))
    (h : off ∈ planeOffsets mode code) :
    ∃ n ∈ g.loadNodes root, ∃ i : ℕ, (st'.metas n).fieldIdx = (i : ℕ) ∧
      off = BitVec.ofNat 64 (8 * i) := by
  have hfield : IsFieldOffset g root st'.metas off := by
    cases mode with
    | bitSliced =>
      obtain ⟨konst, rfl, -⟩ := allocated_of_compile hcompile
      exact isFieldOffset_expressionCode h
    | scalar =>
      rw [compile_scalar] at hcompile
      obtain ⟨hcode, hst⟩ := Prod.mk.inj hcompile
      obtain rfl := hst
      obtain rfl := Option.some.inj hcode
      exact isFieldOffset_scalarCode h
  obtain ⟨n, hn, hoff⟩ := hfield
  have hidx := fieldIdx_of_compile hcompile hn
  refine ⟨n, hn, _, hidx, ?_⟩
  rw [hoff, hidx, field_offset]

end Jit
end ApexEngine
