import ApexEngine.Jit.Modes

/-!
# Kernels with the threads that call them

What is said of the mask of an expression is said of every kernel of it: whatever the
heap and the nodes were when it was compiled, and whatever thread calls it.
`CompiledKernel` is such a kernel with its thread, `CompiledKernel.Returns` that every
call on planes that show 64 rows returns a mask, and `CompiledKernel.returns_iff` that
there is one mask for 64 rows.

The registers a call is entered with are part of the thread.  A well-typed expression
does not depend on them (`kernelMask_getLsbD`).
-/

namespace ApexEngine
namespace Jit

open A64 (Word)

/-- A kernel of an expression, with a thread that calls it. -/
structure CompiledKernel (mode : ExecutionMode) (g : Graph) (root : NodeRef) where
  heap : ℕ → Word
  st : CompileState
  code : List A64.Item
  st' : CompileState
  caller : Caller
  compiled : compile mode heap g (some root) st = (some code, st')
  /-- The array of planes and the scratchpad have room for the expression. -/
  fits : Fits g mode root
  /-- The constants of the kernel are in the pool of the thread. -/
  pool : st'.pool ⊆ caller.pool

namespace CompiledKernel

variable {mode : ExecutionMode} {g : Graph} {root : NodeRef}

/-- Called on planes that show the rows, the kernel returns a mask. -/
def Returns (k : CompiledKernel mode g root) (rows : ℕ → Graph.Row) (m : Word) : Prop :=
  ∀ planes scratch, Presents mode g root k.st'.metas planes rows →
    Keeps g mode root k.st'.metas scratch →
    ∃ S, k.caller.callExpr k.code planes scratch = some (m, S)

/-- The mask of a kernel. -/
def mask (k : CompiledKernel mode g root) (rows : ℕ → Graph.Row) : Word :=
  kernelMask g rows mode root (k.caller.regs .x2) (k.caller.regs .x3) (k.caller.regs .x5)

theorem returns_mask (k : CompiledKernel mode g root) (rows : ℕ → Graph.Row) :
    k.Returns rows (k.mask rows) := by
  intro planes scratch hp hkeeps
  obtain ⟨S, hrun, -⟩ := call_compiled k.compiled k.fits k.pool hp hkeeps
  exact ⟨S, hrun⟩

/-- **There is one mask a kernel returns** on 64 rows. -/
theorem returns_iff (k : CompiledKernel mode g root) {rows : ℕ → Graph.Row} {m : Word} :
    k.Returns rows m ↔ m = k.mask rows := by
  constructor
  · intro h
    have hp := presents_presented k.compiled rows
    have hzero := keeps_zero mode g root k.st'.metas
    obtain ⟨S, hrun⟩ := h _ _ hp hzero
    obtain ⟨S', hrun'⟩ := k.returns_mask rows _ _ hp hzero
    rw [hrun] at hrun'
    exact (Prod.mk.inj (Option.some.inj hrun')).1
  · rintro rfl
    exact k.returns_mask rows

/-- The mask of a well-typed expression in a lane. -/
theorem mask_getLsbD (k : CompiledKernel mode g root) (hw : g.WellTyped root)
    (rows : ℕ → Graph.Row) {r : ℕ} (hr : r < 64) :
    (k.mask rows).getLsbD r = laneVerdict g rows mode root r :=
  kernelMask_getLsbD hw mode _ _ _ hr

/-- On 64 rows the mask of a kernel is the truth of the expression. -/
def TellsTruth (k : CompiledKernel mode g root) (rows : ℕ → Graph.Row) : Prop :=
  ∃ m, k.Returns rows m ∧ ∀ r < 64, m.getLsbD r = g.truth (rows r) root

theorem tellsTruth_iff (k : CompiledKernel mode g root) (rows : ℕ → Graph.Row) :
    k.TellsTruth rows ↔ ∀ r < 64, (k.mask rows).getLsbD r = g.truth (rows r) root := by
  constructor
  · rintro ⟨m, hm, htruth⟩
    rwa [k.returns_iff.mp hm] at htruth
  · exact fun h => ⟨_, k.returns_mask rows, h⟩

/-- Every expression with room has a scalar kernel. -/
theorem nonempty_scalar (hfits : Fits g .scalar root) : Nonempty (CompiledKernel .scalar g root) :=
  ⟨⟨standardHeap, ⟨fun _ => {}, []⟩, _, _, Caller.standard [] (by decide),
    compile_scalar _ _ _ _, hfits, List.nil_subset _⟩⟩

/-- An accepted expression has a bit-sliced kernel on a new thread, whose pool then has its
constants. -/
theorem nonempty_bitSliced (vs : List Word) (hvs : vs.length ≤ 2 ^ 32)
    (hpool : (compileExpression standardHeap g (some root) ⟨fun _ => {}, []⟩).2.pool =
      standardPool vs) (haccepts : Accepts g .bitSliced root) :
    Nonempty (CompiledKernel .bitSliced g root) := by
  obtain ⟨konst, pool, hcompile, -⟩ := compileExpression_ok standardHeap g root ⟨fun _ => {}, []⟩
    (haccepts rfl).1 (haccepts rfl).2
  rw [hcompile] at hpool
  refine ⟨⟨_, _, _, _, Caller.standard vs hvs, hcompile, fun h => absurd h (by decide), ?_⟩⟩
  rw [hpool]
  exact List.Subset.refl _

end CompiledKernel
end Jit
end ApexEngine
