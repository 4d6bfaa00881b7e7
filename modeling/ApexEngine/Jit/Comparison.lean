import ApexEngine.Jit.Kernel

/-!
# `JitCompiler::compile_comparison`

The threshold kernel is 64 unrolled blocks, from bit 63 down to bit 0, each
specialized to the threshold's bit there, over a pointer that is decremented after
every load.  A block for a clear bit does a full comparator step against a zero
plane and a block for a set bit one against a plane of ones, with what is constant
folded away (`comparisonBlock_exec`); so the whole kernel is the comparator against
the broadcast threshold, and `callThreshold_compileComparison` says which mask it
returns.
-/

namespace ApexEngine
namespace Jit

open A64 (Word Reg Cpu Item Instr)

/-! ## The code -/

/-- The block emitted for one bit. -/
def comparisonBlock (threshold : Word) (bit : ℕ) : List Instr :=
  .ldr .x12 (.post .x11 (-8)) ::
    if (threshold >>> bit) &&& 1 = 0 then
      [.bin .and .x13 .x10 (.reg .x12),
       .bin .orr .x9 .x9 (.reg .x13),
       .bin .bic .x10 .x10 (.reg .x12)]
    else
      [.bin .and .x10 .x10 (.reg .x12)]

/-- The blocks for bits `k - 1` down to `0`. -/
def comparisonBlocks (threshold : Word) : ℕ → List Instr
  | 0 => []
  | k + 1 => comparisonBlock threshold k ++ comparisonBlocks threshold k

/-- No lane is greater, every lane is equal, and the walking pointer is at plane
63. -/
def comparisonPrologue : List Instr :=
  [.bin .orr .x9 .xzr (.reg .xzr),
   .mov .x10 (.imm (-1)),
   .bin .add .x11 .x0 (.imm 504)]

/-- `JitCompiler::compile_comparison`. -/
def compileComparison (threshold : Word) : List Item :=
  (comparisonPrologue ++ comparisonBlocks threshold 64 ++ [Instr.mov .x0 (.reg .x9)]).map .instr ++
    [.ret .x30]

/-! ## One block -/

theorem shiftRight_and_one_eq_zero {x : Word} {b : ℕ} :
    (x >>> b) &&& 1 = 0 ↔ x.getLsbD b = false := by
  rw [and_one_eq_zero_iff, BitVec.getLsbD_ushiftRight, Nat.add_zero]

/-- The masks a machine holds while the threshold kernel runs. -/
def comparisonOf (c : Cpu) : BitPlane.Comparison 64 := ⟨c.get .x9, c.get .x10⟩

/-- **A block is a comparator step** against the threshold's bit in every lane. -/
theorem comparisonBlock_exec (threshold : Word) (bit : ℕ) {p : Word} {c : Cpu}
    (hload : c.mem.load (c.get .x11) = some p) :
    ∃ c', A64.execs (comparisonBlock threshold bit) c = some c' ∧ c'.mem = c.mem ∧
      c'.get .x11 = c.get .x11 - 8 ∧
      comparisonOf c' = (comparisonOf c).step p (BitPlane.broadcast threshold bit) := by
  unfold comparisonBlock
  by_cases hbit : (threshold >>> bit) &&& 1 = 0
  · have hb : threshold.getLsbD bit = false := shiftRight_and_one_eq_zero.mp hbit
    rw [if_pos hbit, BitPlane.broadcast_of_false hb, BitPlane.Comparison.step_zero]
    simp [A64.execs_cons, Instr.exec, A64.Addr.resolve, hload, A64.BinOp.eval, comparisonOf,
      BitVec.sub_eq_add_neg]
  · have hb : threshold.getLsbD bit = true := by
      rw [shiftRight_and_one_eq_zero] at hbit
      simpa using hbit
    rw [if_neg hbit, BitPlane.broadcast_of_true hb, BitPlane.Comparison.step_allOnes]
    simp [A64.execs_cons, Instr.exec, A64.Addr.resolve, hload, A64.BinOp.eval, comparisonOf,
      BitVec.sub_eq_add_neg]

/-! ## The kernel -/

section Call

variable (caller : Caller) (planes : ℕ → Word) (threshold : Word)

/-- The blocks below bit `k`, entered with the pointer at plane `k - 1`. -/
theorem comparisonBlocks_exec {m : A64.Memory}
    (hmem : ∀ b < 64, m.load (caller.layout.cell (.plane 0) b) = some (planes b)) {k : ℕ}
    (hk : k ≤ 64) {c : Cpu} (hm : c.mem = m)
    (hptr : c.get .x11 = caller.layout.cell (.plane 0) k - 8) :
    ∃ c', A64.execs (comparisonBlocks threshold k) c = some c' ∧
      comparisonOf c' =
        BitPlane.Comparison.run planes (BitPlane.broadcast threshold) k (comparisonOf c) := by
  induction k generalizing c with
  | zero => exact ⟨c, rfl, rfl⟩
  | succ k ih =>
    rw [caller.layout.cell_succ_sub] at hptr
    obtain ⟨d, hd, hdm, hdptr, hdcmp⟩ := comparisonBlock_exec threshold k
      (by rw [hm, hptr]; exact hmem k (by omega))
    obtain ⟨c', hc', hcmp⟩ := ih (by omega) (hdm.trans hm) (by rw [hdptr, hptr])
    refine ⟨c', ?_, ?_⟩
    · rw [comparisonBlocks, A64.execs_append, hd]
      exact hc'
    · rw [hcmp, hdcmp, BitPlane.Comparison.run]

theorem Caller.load_enterThreshold {b : ℕ} (hb : b < 64) :
    (caller.enterThreshold planes).mem.load (caller.layout.cell (.plane 0) b) = some (planes b) :=
  caller.load_plane _ _ _ (i := 0) (by omega) rfl hb

/-- The prologue leads to the blocks. -/
theorem comparisonPrologue_exec :
    ∃ d, A64.execs comparisonPrologue (caller.enterThreshold planes) = some d ∧
      d.mem = (caller.enterThreshold planes).mem ∧
      d.get .x11 = caller.layout.cell (.plane 0) 64 - 8 ∧ comparisonOf d = .start := by
  refine ⟨_, rfl, rfl, ?_, ?_⟩
  · have : caller.layout.cell (.plane 0) 64 - 8 = caller.layout.cell (.plane 0) 0 + 504 := by
      rw [caller.layout.cell_succ_sub (.plane 0) 63]
      exact (caller.layout.cell_add (.plane 0) 0 63).symm
    rw [this]
    simp [A64.BinOp.eval, Caller.enterThreshold]
  · simp [comparisonOf, BitPlane.Comparison.start, A64.BinOp.eval]

/-- The straight-line part of the kernel. -/
theorem compileComparison_exec :
    ∃ c', A64.execs (comparisonPrologue ++ comparisonBlocks threshold 64 ++ [.mov .x0 (.reg .x9)])
        (caller.enterThreshold planes) = some c' ∧
      c'.get .x0 =
        (BitPlane.Comparison.run planes (BitPlane.broadcast threshold) 64 .start).gt := by
  obtain ⟨d, hd, hdm, hdptr, hdcmp⟩ := comparisonPrologue_exec caller planes
  obtain ⟨e, he, hecmp⟩ := comparisonBlocks_exec caller planes threshold
    (fun b hb => caller.load_enterThreshold planes hb) le_rfl hdm hdptr
  refine ⟨e.set .x0 (e.get .x9), ?_, ?_⟩
  · rw [A64.execs_append, A64.execs_append, hd, Option.bind_some, he]
    rfl
  · rw [← hdcmp, ← hecmp]
    simp [comparisonOf]

/-- **The threshold kernel is the comparator against the threshold.** -/
theorem callThreshold_compileComparison :
    caller.callThreshold (compileComparison threshold) planes =
      some (BitPlane.Comparison.run planes (BitPlane.broadcast threshold) 64 .start).gt := by
  obtain ⟨d, hd, hmask⟩ := compileComparison_exec caller planes threshold
  have hrun : A64.run (compileComparison threshold) (Caller.fuel (compileComparison threshold))
      ⟨0, caller.enterThreshold planes⟩ = some (d.get .x30, d) := A64.run_block_ret hd (by
    simp only [Caller.fuel, compileComparison, List.length_append, List.length_map]
    omega)
  rw [Caller.callThreshold, ← Caller.enterThreshold, hrun, Option.map_some, hmask]

end Call
end Jit
end ApexEngine
