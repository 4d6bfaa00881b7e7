import ApexEngine.Jit.Comparison
import ApexEngine.Machine.Trace

/-!
# What the threshold kernel reads and returns

The kernel of `compile_comparison` is straight-line code, so the list of its accesses can be
written down: one load in every block, from a pointer that starts at plane 63 and goes down
by a word (`accesses_comparisonBlocks`).  It writes nothing.

`threshold_kernel` puts this beside the mask: bit `r` says whether the number in lane `r` of
the planes is above the threshold, whatever the registers and the rest of memory contain.
-/

namespace ApexEngine
namespace Jit

open A64 (Word Cpu Access)

/-- What a call of a threshold kernel reads and writes, in order. -/
def Caller.thresholdTrace (caller : Caller) (code : List A64.Item) (planes : ℕ → Word) :
    List Access :=
  A64.trace code (Caller.fuel code) ⟨0, caller.enterThreshold planes⟩

/-- The reads of the words `k - 1` down to `0` of a segment. -/
def Caller.readsDown (caller : Caller) (segment : Seg caller.pool.length) (k : ℕ) : List Access :=
  (List.range k).reverse.map fun b => .read (caller.layout.cell segment b)

theorem Caller.readsDown_succ (caller : Caller) (segment : Seg caller.pool.length) (k : ℕ) :
    caller.readsDown segment (k + 1) =
      .read (caller.layout.cell segment k) :: caller.readsDown segment k := by
  rw [readsDown, List.range_succ, List.reverse_append, List.map_append]
  rfl

/-- A block reads the word under the pointer and nothing else. -/
theorem accesses_comparisonBlock (threshold : Word) (bit : ℕ) {p : Word} {c : Cpu}
    (hload : c.mem.load (c.get .x11) = some p) :
    A64.accesses (comparisonBlock threshold bit) c = [.read (c.get .x11)] := by
  have hldr : (A64.Instr.ldr .x12 (.post .x11 (-8))).exec c =
      some ((c.set .x11 (c.get .x11 + -8)).set .x12 p) := by
    simp only [A64.Instr.exec, A64.Addr.resolve, hload, Option.map_some]
  unfold comparisonBlock
  rw [A64.accesses_cons hldr]
  split <;> rfl

section Call

variable (caller : Caller) (planes : ℕ → Word) (threshold : Word)

/-- **The blocks below bit `k` read the planes below `k`**, from the top. -/
theorem accesses_comparisonBlocks {m : A64.Memory}
    (hmem : ∀ b < 64, m.load (caller.layout.cell (.plane 0) b) = some (planes b)) {k : ℕ}
    (hk : k ≤ 64) {c : Cpu} (hm : c.mem = m)
    (hptr : c.get .x11 = caller.layout.cell (.plane 0) k - 8) :
    A64.accesses (comparisonBlocks threshold k) c = caller.readsDown (.plane 0) k := by
  induction k generalizing c with
  | zero => rfl
  | succ k ih =>
    rw [caller.layout.cell_succ_sub] at hptr
    have hload : c.mem.load (c.get .x11) = some (planes k) := by
      rw [hm, hptr]
      exact hmem k (by omega)
    obtain ⟨d, hd, hdm, hdptr, -⟩ := comparisonBlock_exec threshold k hload
    rw [comparisonBlocks, A64.accesses_append hd, accesses_comparisonBlock threshold k hload, hptr,
      ih (by omega) (hdm.trans hm) (by rw [hdptr, hptr]), Caller.readsDown_succ]
    rfl

/-- **The threshold kernel reads planes 63 down to 0**, each once, and writes nothing. -/
theorem thresholdTrace_compileComparison :
    caller.thresholdTrace (compileComparison threshold) planes = caller.readsDown (.plane 0) 64 := by
  obtain ⟨c', hexec, -⟩ := compileComparison_exec caller planes threshold
  obtain ⟨d, hd, hdm, hdptr, -⟩ := comparisonPrologue_exec caller planes
  obtain ⟨e, he, -⟩ := comparisonBlocks_exec caller planes threshold
    (fun b hb => caller.load_enterThreshold planes hb) le_rfl hdm hdptr
  have hprologue : A64.accesses comparisonPrologue (caller.enterThreshold planes) = [] := rfl
  have hblocks := accesses_comparisonBlocks caller planes threshold
    (fun b hb => caller.load_enterThreshold planes hb) le_rfl hdm hdptr
  have hlast : A64.accesses [.mov .x0 (.reg .x9)] e = [] := rfl
  have hfuel : (comparisonPrologue ++ comparisonBlocks threshold 64 ++
      [A64.Instr.mov .x0 (.reg .x9)]).length ≤ Caller.fuel (compileComparison threshold) := by
    simp only [Caller.fuel, compileComparison, List.length_append, List.length_map]
    omega
  have hbefore : A64.execs (comparisonPrologue ++ comparisonBlocks threshold 64)
      (caller.enterThreshold planes) = some e := by
    rw [A64.execs_append, hd, Option.bind_some, he]
  have htrace : caller.thresholdTrace (compileComparison threshold) planes = A64.accesses _ _ :=
    A64.trace_block_ret hexec hfuel
  rw [htrace, A64.accesses_append hbefore, A64.accesses_append hd, hprologue, hblocks, hlast,
    List.nil_append, List.append_nil]

/-- **The mask and the reads of a threshold kernel.**  For every threshold and all planes, in
every state of the other registers and of memory, bit `r` of the mask is set exactly when the
number in lane `r` is above the threshold, and the planes are read once each, from plane 63
down. -/
theorem threshold_kernel :
    (∃ mask, caller.callThreshold (compileComparison threshold) planes = some mask ∧
      ∀ r < 64, mask.getLsbD r = true ↔ threshold < BitPlane.laneNumber 64 planes r) ∧
    caller.thresholdTrace (compileComparison threshold) planes =
      (List.range 64).reverse.map fun b => .read (caller.layout.cell (.plane 0) b) := by
  refine ⟨⟨_, callThreshold_compileComparison caller planes threshold, fun r hr => ?_⟩,
    thresholdTrace_compileComparison caller planes threshold⟩
  rw [BitPlane.run_gt hr (BitPlane.shows_laneNumber planes r) (BitPlane.shows_broadcast threshold hr),
    decide_eq_true_iff]

end Call
end Jit
end ApexEngine
