import ApexEngine.Jit.Kernel

/-!
# What the two code generators share

Both expression compilers load 64-bit immediates with a `movz` and three `movk`s,
count in a register up to a bound, reach the words of an array by its index, and save
callee-saved registers in pairs on the stack.  Here are the effects of these
sequences: the immediate arrives (`execs_emitMovImm64`), and a push and a pop move the
stack pointer by two cells of the frame (`execs_push`, `execs_pop`).
-/

namespace ApexEngine
namespace Jit

open A64 (Word Reg Cpu Instr Frame)

/-! ## Immediates -/

/-- `emit_mov_imm64`. -/
def emitMovImm64 (dst : Reg) (imm : Word) : List Instr :=
  [.movz dst (imm &&& 0xFFFF) 0,
   .movk dst ((imm >>> 16) &&& 0xFFFF) 16,
   .movk dst ((imm >>> 32) &&& 0xFFFF) 32,
   .movk dst ((imm >>> 48) &&& 0xFFFF) 48]

theorem mask16_getLsbD (j : ℕ) : (0xFFFF : Word).getLsbD j = decide (j < 16) := by
  by_cases hj : j < 64
  · revert hj
    revert j
    decide
  · rw [BitVec.getLsbD_of_ge _ _ (by omega)]
    simp
    omega

/-- The low bits of a word. -/
def IsLowPart (s : ℕ) (v x : Word) : Prop := ∀ j, x.getLsbD j = (decide (j < s) && v.getLsbD j)

/-- A `movk` adds the next sixteen bits. -/
theorem IsLowPart.movk {v x : Word} {s : ℕ} (h : IsLowPart s v x) (hs : s ≤ 48) :
    IsLowPart (s + 16) v
      ((x &&& ~~~((0xFFFF : Word) <<< s)) ||| ((v >>> s) &&& 0xFFFF) <<< s) := by
  intro j
  simp only [BitVec.getLsbD_or, BitVec.getLsbD_and, BitVec.getLsbD_not, BitVec.getLsbD_shiftLeft,
    BitVec.getLsbD_ushiftRight, mask16_getLsbD, h j]
  by_cases h1 : j < s
  · simp [h1, show j < s + 16 by omega, show j < 64 by omega]
  · by_cases h2 : j < s + 16
    · simp [h1, h2, show j < 64 by omega, show j - s < 16 by omega, show s + (j - s) = j by omega]
    · simp [h1, h2, show ¬ (j - s < 16) by omega]

theorem IsLowPart.eq {v x : Word} (h : IsLowPart 64 v x) : x = v := by
  apply BitVec.eq_of_getLsbD_eq
  intro j hj
  rw [h j, decide_eq_true hj, Bool.true_and]

/-- **The immediate arrives** in its register, and no other register changes. -/
theorem execs_emitMovImm64 {dst : Reg} (hdst : dst ≠ .xzr) (imm : Word) (c : Cpu) :
    ∃ c', A64.execs (emitMovImm64 dst imm) c = some c' ∧ Frame [dst] c c' ∧ c'.get dst = imm := by
  refine ⟨_, rfl, ?_, ?_⟩
  · exact ((((Frame.refl _ c).set (by simp) _).set (by simp) _).set (by simp) _).set (by simp) _
  · have h0 : IsLowPart 16 imm ((imm &&& 0xFFFF) <<< 0) := by
      intro j
      rw [BitVec.shiftLeft_zero, BitVec.getLsbD_and, mask16_getLsbD, Bool.and_comm]
    have h := ((h0.movk (by omega)).movk (by omega)).movk (by omega)
    simp only [Cpu.get_set, hdst, if_true, if_false]
    exact h.eq

/-! ## Indices and offsets -/

/-- The offset of a bit's word in its array. -/
theorem lsl_three (k : ℕ) :
    A64.BinOp.eval .lsl (BitVec.ofNat 64 k) 3 = BitVec.ofNat 64 (8 * k) := by
  apply BitVec.eq_of_toNat_eq
  show ((BitVec.ofNat 64 k) <<< 3).toNat = _
  rw [BitVec.toNat_shiftLeft, BitVec.toNat_ofNat, BitVec.toNat_ofNat, Nat.shiftLeft_eq]
  omega

/-- The offset of a field's pointer in the plane array. -/
theorem field_offset {i : ℕ} : BitVec.ofInt 64 ((i : ℤ) * 8) = BitVec.ofNat 64 (8 * i) := by
  rw [show (i : ℤ) * 8 = ((8 * i : ℕ) : ℤ) by push_cast; ring, BitVec.ofInt_natCast]

/-- Comparing an index with a bound. -/
theorem hs_ofNat {i N : ℕ} (hi : i < 2 ^ 64) (hN : N < 2 ^ 64) :
    A64.Cond.hs.holds (A64.Flags.ofSub (BitVec.ofNat 64 i) (BitVec.ofNat 64 N)) = decide (N ≤ i) := by
  simp only [A64.Cond.holds, A64.Flags.ofSub, BitVec.le_def, BitVec.toNat_ofNat,
    Nat.mod_eq_of_lt hi, Nat.mod_eq_of_lt hN]

/-! ## The frame -/

section Stack

variable {caller : Caller} {planes : Planes} {scratch stack : ℕ → Word} {c : Cpu} {j : ℕ}

/-- **Push a pair**: the stack pointer moves down two cells, which get the pair. -/
theorem execs_push (hj : j + 2 ≤ 12) (hmem : c.mem = caller.memory planes scratch stack)
    (hsp : c.get .sp = caller.layout.cell .stack (j + 2)) (a b : Reg) (is : List Instr) :
    ∃ c', A64.execs (.stp a b (.pre .sp (-16)) :: is) c = A64.execs is c' ∧
      c'.mem = caller.memory planes scratch
        (Function.update (Function.update stack j (c.get a)) (j + 1) (c.get b)) ∧
      c'.get .sp = caller.layout.cell .stack j ∧ ∀ r, r ≠ .sp → c'.get r = c.get r := by
  have hbase : c.get .sp + (-16) = caller.layout.cell .stack j := by
    rw [hsp, ← caller.layout.cell_add .stack j 2, BitVec.add_assoc,
      show BitVec.ofNat 64 (8 * 2) + (-16) = (0 : Word) by decide]
    exact BitVec.add_zero _
  have hnext : caller.layout.cell .stack j + 8 = caller.layout.cell .stack (j + 1) :=
    caller.layout.cell_add .stack j 1
  have hres : (A64.Addr.pre .sp (-16)).resolve c =
      (caller.layout.cell .stack j, c.set .sp (caller.layout.cell .stack j)) := by
    rw [A64.Addr.resolve, hbase]
  have h1 : c.mem.store ((A64.Addr.pre .sp (-16)).resolve c).1 (c.get a) =
      some (caller.memory planes scratch (Function.update stack j (c.get a))) := by
    rw [hmem, hres]
    exact caller.store_stack planes scratch stack (by omega) _
  have h2 : (caller.memory planes scratch (Function.update stack j (c.get a))).store
      (((A64.Addr.pre .sp (-16)).resolve c).1 + 8) (c.get b) =
      some (caller.memory planes scratch
        (Function.update (Function.update stack j (c.get a)) (j + 1) (c.get b))) := by
    rw [hres, hnext]
    exact caller.store_stack planes scratch _ (by omega) _
  refine ⟨_, A64.execs_stp is c h1 h2, rfl, ?_, ?_⟩
  · rw [hres, Cpu.get_with_mem, Cpu.get_set_self _ _ (by decide)]
  · intro r hr
    rw [hres, Cpu.get_with_mem, Cpu.get_set_of_ne _ _ hr]

/-- **A pair is popped** from where it was pushed. -/
theorem execs_pop (hj : j + 2 ≤ 12) (hmem : c.mem = caller.memory planes scratch stack)
    (hsp : c.get .sp = caller.layout.cell .stack j) (a b : Reg) (is : List Instr) :
    A64.execs (.ldp a b (.post .sp 16) :: is) c =
      A64.execs is (((c.set .sp (caller.layout.cell .stack (j + 2))).set a (stack j)).set b
        (stack (j + 1))) := by
  have hnext : caller.layout.cell .stack j + 8 = caller.layout.cell .stack (j + 1) :=
    caller.layout.cell_add .stack j 1
  have hres : (A64.Addr.post .sp 16).resolve c =
      (caller.layout.cell .stack j, c.set .sp (caller.layout.cell .stack (j + 2))) := by
    rw [A64.Addr.resolve, hsp]
    congr 2
    exact caller.layout.cell_add .stack j 2
  have h1 : c.mem.load ((A64.Addr.post .sp 16).resolve c).1 = some (stack j) := by
    rw [hmem, hres]
    exact caller.load_stack planes scratch stack (by omega)
  have h2 : c.mem.load (((A64.Addr.post .sp 16).resolve c).1 + 8) = some (stack (j + 1)) := by
    rw [hmem, hres, hnext]
    exact caller.load_stack planes scratch stack (by omega)
  rw [A64.execs_ldp is c h1 h2, hres]

end Stack
end Jit
end ApexEngine
