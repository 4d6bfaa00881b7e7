import ApexEngine.Api.Threshold
import ApexEngine.Jit.Readings

/-!
# The two modes of an engine

An expression can be installed in either mode.  Where it comes to the same in both readings
(`SameReading`), the kernels return the same mask for any 64 rows and `execute` the same
count on every dataset; where it does not, there are 64 rows on which the masks differ
(`modesAgree_iff`).

It does when it is a conjunction of at most three greater-than and less-than comparisons of
additions.  As long as there are no differences, shifts, negations and selections, it does
exactly when it says what its first three comparisons say, none of which is an equality.  So
an equality at the root is read alike only if it never holds (`modesAgree_equality`): the
bit-sliced compiler collects it and emits nothing for it.
-/

namespace ApexEngine
namespace Api

open A64 (Word)
open Core (Name)
open Compute (Data)
open Jit (ExecutionMode Caller Graph NodeRef CompileState Presents Fits ReadsAlike SameReading)

section Modes

variable {callers : ℕ → Caller} {g : Graph} {root : NodeRef} {heap : ExecutionMode → ℕ → Word}
  {st : ExecutionMode → CompileState}

/-- The modes agree on an expression: their kernels return the same mask for any 64 rows,
and in every engine whose schema has the fields of the expression, `execute` returns the
same count on every dataset.  Each compiler is entered in a state of its own. -/
structure ModesAgree (callers : ℕ → Caller) (g : Graph) (root : NodeRef)
    (heap : ExecutionMode → ℕ → Word) (st : ExecutionMode → CompileState) : Prop where
  masks : ∀ row, ∀ rows : ℕ → Graph.Row, ∃ m, ∀ mode code st',
    Jit.compile mode (heap mode) g (some root) (st mode) = (some code, st') →
    ∀ planes, Presents mode g root st'.metas planes rows →
      ∃ S, (callers row).callExpr code planes (fun _ => 0) = some (m, S)
  counts : ∀ (order : IterationOrder) (e : Engine) (s : Name) (schema : SchemaMetadata),
    Configured e s schema → Resolves s e.registry g root → ∀ data n, ∃ total, ∀ mode,
      (e.setExpression s (heap mode) g (some root) mode (st mode)).1.count callers data order n =
        some total

/-- A kernel that is called with a cleared scratchpad. -/
theorem callExpr_kernelMask {mode : ExecutionMode} {heap : ℕ → Word} {st st' : CompileState}
    {code : List A64.Item} (hcompile : Jit.compile mode heap g (some root) st = (some code, st'))
    (hfits : Fits g mode root) {caller : Caller} (hpool : st'.pool ⊆ caller.pool)
    {planes : Jit.Planes} {rows : ℕ → Graph.Row} (hp : Presents mode g root st'.metas planes rows) :
    ∃ S, caller.callExpr code planes (fun _ => 0) =
      some (Jit.kernelMask g rows mode root (caller.regs .x2) (caller.regs .x3) (caller.regs .x5),
        S) := by
  obtain ⟨S, hcall, -⟩ := Jit.call_compiled hcompile hfits hpool hp
    (Jit.keeps_zero mode g root st'.metas)
  exact ⟨S, hcall⟩

/-- The compilers that accept an expression. -/
structure Accepted (callers : ℕ → Caller) (g : Graph) (root : NodeRef)
    (heap : ExecutionMode → ℕ → Word) (st : ExecutionMode → CompileState) : Prop where
  compiles : ∀ mode, ∃ code st',
    Jit.compile mode (heap mode) g (some root) (st mode) = (some code, st')
  pool : ∀ mode row,
    (Jit.compile mode (heap mode) g (some root) (st mode)).2.pool ⊆ (callers row).pool
  nodes_le : (g.listing root).length ≤ 512

namespace Accepted

variable (h : Accepted callers g root heap st)

include h

/-- What the bit-sliced compiler accepts has no more fields than the scalar kernel has
room for. -/
theorem fits (mode : ExecutionMode) : Fits g mode root := by
  obtain ⟨code, st', hcompile⟩ := h.compiles .bitSliced
  exact fun _ => ⟨(Jit.limits_of_compileExpression _ g root _ hcompile).1, h.nodes_le⟩

theorem pool_of_compile {mode : ExecutionMode} {code : List A64.Item} {st' : CompileState}
    (hcompile : Jit.compile mode (heap mode) g (some root) (st mode) = (some code, st'))
    (row : ℕ) : st'.pool ⊆ (callers row).pool := by
  have hpool := h.pool mode row
  rwa [hcompile] at hpool

/-- Kernels that return the same masks are those of an expression the modes read alike. -/
theorem readsAlike_of_masks (hw : g.WellTyped root)
    (hmasks : ∀ rows : ℕ → Graph.Row, ∃ m, ∀ mode code st',
      Jit.compile mode (heap mode) g (some root) (st mode) = (some code, st') →
      ∀ planes, Presents mode g root st'.metas planes rows →
        ∃ S, (callers 0).callExpr code planes (fun _ => 0) = some (m, S)) : ReadsAlike g root := by
  refine (Jit.forall_kernelMask_iff hw ((callers 0).regs .x2) ((callers 0).regs .x3)
    ((callers 0).regs .x5)).mp fun rows => ?_
  obtain ⟨m, hm⟩ := hmasks rows
  have hmode : ∀ mode, Jit.kernelMask g rows mode root ((callers 0).regs .x2)
      ((callers 0).regs .x3) ((callers 0).regs .x5) = m := by
    intro mode
    obtain ⟨code, st', hcompile⟩ := h.compiles mode
    have hp := Jit.presents_presented hcompile rows
    obtain ⟨S, hcall⟩ := hm mode code st' hcompile _ hp
    obtain ⟨S', hcall'⟩ := callExpr_kernelMask hcompile (h.fits mode)
      (h.pool_of_compile hcompile 0) hp
    rw [hcall] at hcall'
    exact (Prod.mk.inj (Option.some.inj hcall')).1.symm
  rw [hmode, hmode]

/-- An expression that is read alike is decided alike in either mode. -/
theorem decides (hw : g.WellTyped root) (halike : ReadsAlike g root) {e : Engine} {s : Name}
    (hres : Resolves s e.registry g root) (mode : ExecutionMode) :
    ∃ logic, (e.setExpression s (heap mode) g (some root) mode (st mode)).1 =
        { e with exprLogic := e.exprLogic.insert s logic } ∧
      Decides callers logic fun bytes => g.scalarTruth (rowOf e.registry s bytes) root := by
  obtain ⟨code, st', hcompile⟩ := h.compiles mode
  have hinst := installed_setExpression hcompile hres
  rw [setExpression_some e s hcompile] at hinst ⊢
  refine ⟨_, rfl, hinst.decides (h.fits mode) (h.pool_of_compile hcompile) hw ?_⟩
  intro bytes r hr
  have hsliced : Jit.laneVerdict g (fun r => rowOf e.registry s (bytes r)) .bitSliced root r =
      g.scalarTruth (rowOf e.registry s (bytes r)) root := halike.lane _ r
  cases mode with
  | bitSliced => exact hsliced
  | scalar =>
    rw [← hsliced]
    exact ((Jit.forall_laneVerdict_iff hw).mpr halike _ r hr).symm

end Accepted

/-- An expression that is read alike is run alike. -/
theorem Accepted.modesAgree (h : Accepted callers g root heap st) (hw : g.WellTyped root)
    (halike : ReadsAlike g root) : ModesAgree callers g root heap st := by
  constructor
  · intro row rows
    refine ⟨Jit.kernelMask g rows .scalar root ((callers row).regs .x2) ((callers row).regs .x3)
      ((callers row).regs .x5), fun mode code st' hcompile planes hp => ?_⟩
    have hcall := callExpr_kernelMask hcompile (h.fits mode) (h.pool_of_compile hcompile row) hp
    cases mode with
    | scalar => exact hcall
    | bitSliced =>
      rw [(Jit.forall_kernelMask_iff hw _ _ _).mpr halike rows] at hcall
      exact hcall
  · intro order e s schema he hres data n
    let P : Data → Bool := fun bytes => g.scalarTruth (rowOf e.registry s bytes) root
    refine ⟨(List.range n).countP (fun i => P (datasetRow data schema.rowStride i)) +
      if P fun _ => 0 then Blocks.count 64 n * 64 - n else 0, fun mode => ?_⟩
    obtain ⟨logic, hengine, hdecides⟩ := h.decides hw halike hres mode
    rw [hengine]
    exact he.count_insert hdecides order data n

/-- **The modes agree** exactly on the expressions that come to the same in both readings:
the first three comparisons on short differences and shifts that are zero, and the whole
expression with stand-ins for the nodes without code.  Conjunctions of at most three orders of
additions do.  Where every node has code in scalar mode, the second reading is the truth of
the expression; and where the values are additions, the first is the truth of the first three
comparisons, if none is an equality. -/
theorem modesAgree_iff (h : Accepted callers g root heap st) (hw : g.WellTyped root) :
    (ModesAgree callers g root heap st ↔ SameReading g root) ∧
    (g.Over root Jit.conjunctiveKinds → (Jit.collectComparisons g root).length ≤ 3 →
      ModesAgree callers g root heap st) ∧
    (g.Over root Jit.scalarKinds → (ModesAgree callers g root heap st ↔
      ∀ row lane, g.slicedReading root lane row = g.truth row root)) ∧
    (g.Over root Jit.additiveKinds → (ModesAgree callers g root heap st ↔
      ∀ row, g.truth row root = true ↔
        ∀ n ∈ Jit.Circuit.compared g root, g.kind n ≠ .eq ∧ g.truth row n = true)) := by
  have hiff : ModesAgree callers g root heap st ↔ SameReading g root := by
    rw [← Jit.readsAlike_iff hw]
    exact ⟨fun hagree => h.readsAlike_of_masks hw (hagree.masks 0), h.modesAgree hw⟩
  exact ⟨hiff, fun hover hcount => h.modesAgree hw (Jit.readsAlike_of_conjunctive hw hover hcount),
    fun hover => hiff.trans (Jit.sameReading_iff_of_over hw hover),
    fun hover => hiff.trans (Jit.sameReading_iff_of_additive hw hover)⟩

/-- `GT(Load("a"), Const(5))` is read alike. -/
theorem modesAgree_iff_threshold :
    ModesAgree (fun _ => Caller.standard [5] (by decide)) (Jit.thresholdGraph (.ofString [97]) 5) 2
      (fun _ => Jit.standardHeap) fun _ => sampleState := by
  have hnodes : ((Jit.thresholdGraph (.ofString [97]) 5).listing 2).length ≤ 512 :=
    (Jit.NodePool.length_listing_le (Jit.ordered_thresholdPool _ _) (by decide)).trans (by decide)
  exact (modesAgree_iff ⟨fun mode => compile_threshold mode _ _ _ _,
    fun mode _ => pool_threshold _ mode, hnodes⟩ (Jit.wellTyped_threshold _ _)).2.1
      (Jit.over_threshold _ _ (by decide)) (by decide)

/-- **An equality is not what it should be.**  The scalar kernel of `EQ(Load("a"), Const(5))`
finds the rows with `a = 5`, the bit-sliced kernel none. -/
theorem modesAgree_equality : ¬ ∀ (callers : ℕ → Caller) (g : Graph) (root : NodeRef)
    (heap : ExecutionMode → ℕ → Word) (st : ExecutionMode → CompileState),
    Accepted callers g root heap st → g.WellTyped root → ModesAgree callers g root heap st := by
  intro h
  have hw := Jit.wellTyped_equals (.ofString [97]) 5
  have haccepted : Accepted (fun _ => Caller.standard [5] (by decide))
      (Jit.equalsGraph (.ofString [97]) 5) 2 (fun _ => Jit.standardHeap) fun _ => sampleState := by
    refine ⟨fun mode => ?_, fun mode _ => ?_, ?_⟩
    · cases mode with
      | bitSliced =>
        obtain ⟨konst, pool, hcompile, -⟩ := Jit.compileExpression_ok Jit.standardHeap
          (Jit.equalsGraph (.ofString [97]) 5) 2 sampleState
          (by simp [Jit.fieldNames_equals]) (by simp [Jit.arithmeticNodes_equals])
        exact ⟨_, _, hcompile⟩
      | scalar => exact ⟨_, _, Jit.compile_scalar _ _ _ _⟩
    · cases mode with
      | bitSliced => exact List.Subset.refl [((5 : Word), Jit.standardHeap 0)]
      | scalar => exact List.nil_subset _
    · exact (Jit.NodePool.length_listing_le (Jit.ordered_equalsPool _ _) (by decide)).trans
        (by decide)
  have halike := haccepted.readsAlike_of_masks hw ((h _ _ _ _ _ haccepted hw).masks 0) fun _ => 5
  have hsliced : (Jit.equalsGraph (.ofString [97]) 5).slicedTruth (fun _ => 5) 0 2 = false := rfl
  have hscalar : (Jit.equalsGraph (.ofString [97]) 5).scalarTruth (fun _ => 5) 2 = true := by
    rw [Graph.scalarTruth, Jit.scalarValue_eq hw (by decide), Jit.truth_equals]
    rfl
  rw [hsliced, hscalar] at halike
  exact absurd halike.1 (by decide)

end Modes
end Api
end ApexEngine
