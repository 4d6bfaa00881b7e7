import ApexEngine.Jit.ExpressionMeaning
import ApexEngine.Jit.ScalarMeaning

/-!
# Kernels of either compiler

`kernelMask` is the mask a compiled kernel returns on 64 rows.  It is a function of the
fields the expression names, on these rows, and of three registers of the caller that
an expression with missing or mistyped operands reads without setting them; neither the
addresses of the caller nor the content of the scratchpad enters it, as long as the
slots of shifts are zero, which a call leaves as they are (`call_compiled`).

A well-typed expression reads no register it has not set, and `laneVerdict` says what
the mask of its kernel has in each lane (`kernelMask_getLsbD`).
-/

namespace ApexEngine
namespace Jit

open A64 (Word)
open Core (Name)

/-- The kernel of an expression in a mode. -/
def compile (mode : ExecutionMode) (heap : ℕ → Word) (g : Graph) (root : Option NodeRef)
    (st : CompileState) : Option (List A64.Item) × CompileState :=
  match mode with
  | .bitSliced => compileExpression heap g root st
  | .scalar =>
      let (kernel, metas) := compileScalarExpression g root st.metas
      (kernel, { st with metas := metas })

section Mask

variable (g : Graph) (rows : ℕ → Graph.Row)

/-- The planes a bit-sliced kernel reads, by node. -/
def rowInputs (n : NodeRef) (b : ℕ) : Word :=
  match g.kind n with
  | .load => BitPlane.columnPlane (fun r => rows r (g.node n).fieldName) b
  | .const => BitPlane.broadcast (g.node n).constValue b
  | _ => 0

/-- The mask of a kernel on 64 rows, entered with `x2`, `x3` and `x5`. -/
def kernelMask (mode : ExecutionMode) (root : NodeRef) (x2 x3 x5 : Word) : Word :=
  match mode with
  | .bitSliced => Circuit.mask g (rowInputs g rows) root x2 x3
  | .scalar => Scalar.mask g root (fun k => g.rowLeaf (rows k)) x2 x3 x5

/-- The mask of a well-typed expression in a lane. -/
def laneVerdict (mode : ExecutionMode) (root : NodeRef) (r : ℕ) : Bool :=
  match mode with
  | .bitSliced => g.slicedTruth (rows r) r root
  | .scalar => (List.range 64).any fun j => (g.scalarValue (rows j) root <<< j).getLsbD r

/-- What a kernel relies on in the scratchpad. -/
def Keeps (mode : ExecutionMode) (root : NodeRef) (ms : NodeMetas) (scratch : Scratch) : Prop :=
  match mode with
  | .bitSliced => ShiftsZero g root ms scratch
  | .scalar => True

/-- An expression the mode has room for. -/
def Fits (mode : ExecutionMode) (root : NodeRef) : Prop :=
  mode = .scalar → (g.fieldNames root).length ≤ 8 ∧ (g.listing root).length ≤ 512

end Mask

section Call

variable {mode : ExecutionMode} {heap : ℕ → Word} {g : Graph} {root : NodeRef}
  {st st' : CompileState} {code : List A64.Item} {caller : Caller} {planes : Planes}
  {scratch : Scratch} {rows rows' : ℕ → Graph.Row}

/-- There is always a scalar kernel. -/
theorem compile_scalar (heap : ℕ → Word) (g : Graph) (root : NodeRef) (st : CompileState) :
    compile .scalar heap g (some root) st =
      (some (g.scalarCode root (scalarMetas g root st.metas)),
        { st with metas := scalarMetas g root st.metas }) := by
  rw [compile, compileScalarExpression_eq]

/-- What a compiler accepts.  The scalar one accepts everything. -/
def Accepts (g : Graph) (mode : ExecutionMode) (root : NodeRef) : Prop :=
  mode = .bitSliced → (g.fieldNames root).length ≤ 8 ∧ (g.arithmeticNodes root).length ≤ 8

instance (g : Graph) (mode : ExecutionMode) (root : NodeRef) : Decidable (Accepts g mode root) := by
  unfold Accepts
  infer_instance

/-- **When there is a kernel**: exactly when the compiler accepts the expression. -/
theorem compile_isSome_iff (mode : ExecutionMode) (heap : ℕ → Word) (g : Graph) (root : NodeRef)
    (st : CompileState) :
    (compile mode heap g (some root) st).1.isSome ↔ Accepts g mode root := by
  cases mode with
  | bitSliced =>
    constructor
    · intro h _
      cases hcompile : compileExpression heap g (some root) st with
      | mk code st' =>
        rw [compile, hcompile] at h
        obtain ⟨code, rfl⟩ := Option.isSome_iff_exists.mp h
        exact limits_of_compileExpression heap g root st hcompile
    · intro h
      obtain ⟨hfields, harith⟩ := h rfl
      obtain ⟨konst, pool, hcompile, -⟩ := compileExpression_ok heap g root st hfields harith
      rw [compile, hcompile]
      rfl
  | scalar =>
    rw [compile_scalar]
    exact ⟨fun _ hmode => absurd hmode (by simp), fun _ => rfl⟩

/-- **Either compiler numbers the fields by name**, in the order in which they are met. -/
theorem fieldIdx_of_compile (hcompile : compile mode heap g (some root) st = (some code, st'))
    {n : NodeRef} (hn : n ∈ g.loadNodes root) :
    (st'.metas n).fieldIdx = ((g.fieldNames root).idxOf (g.node n).fieldName : ℕ) := by
  cases mode with
  | bitSliced =>
    obtain ⟨konst, -, halloc⟩ := allocated_of_compile hcompile
    obtain ⟨hmem, hk⟩ := (g.mem_loadNodes root).mp hn
    exact halloc.fieldIdx n hmem hk
  | scalar =>
    rw [compile_scalar] at hcompile
    obtain ⟨-, hst⟩ := Prod.mk.inj hcompile
    obtain rfl := hst
    exact fieldIdx_scalarMetas st.metas hn

/-- A kernel has a root. -/
theorem root_of_compile {exprRoot : Option NodeRef}
    (hcompile : compile mode heap g exprRoot st = (some code, st')) : ∃ root, exprRoot = some root := by
  cases exprRoot with
  | none => cases mode <;> exact absurd (congrArg Prod.fst hcompile) (by simp [compile,
      compileExpression, compileScalarExpression])
  | some root => exact ⟨root, rfl⟩

/-- A cleared scratchpad is one to rely on. -/
theorem keeps_zero (mode : ExecutionMode) (g : Graph) (root : NodeRef) (ms : NodeMetas) :
    Keeps g mode root ms fun _ => 0 := by
  cases mode with
  | bitSliced => exact fun _ _ _ _ _ => rfl
  | scalar => trivial

/-- What the leaves of a circuit are connected to is the planes of the rows. -/
theorem inputs_eq_rowInputs {ms : NodeMetas} (hp : Presents .bitSliced g root ms planes rows)
    (hz : ShiftsZero g root ms scratch) {n : NodeRef} (hn : n ∈ g.listing root)
    (hkind : (g.kind n).resultKind = .bitplane) (hadd : (g.kind n).isAdder = false) {b : ℕ}
    (hb : b < 64) : inputs g ms planes scratch n b = rowInputs g rows n b := by
  unfold inputs rowInputs
  cases hk : g.kind n with
  | load =>
    obtain ⟨p, hplane, hshow⟩ := hp n ((g.mem_loadNodes root).mpr ⟨hn, hk⟩)
    simp only [hplane, Option.map_some, Option.getD_some]
    exact BitPlane.Shows.eq_columnPlane hshow hb
  | const => rfl
  | lsl | lsr =>
    exact hz n ((g.mem_arithmeticNodes root).mpr ⟨hn, by rw [hk]; rfl⟩) hadd b hb
  | add | sub => exact absurd hadd (by rw [hk]; decide)
  | _ => exact absurd hkind (by rw [hk]; decide)

/-- The operands of the nodes with code are listed. -/
theorem sameInputs_rowInputs {ms : NodeMetas} (hp : Presents .bitSliced g root ms planes rows)
    (hz : ShiftsZero g root ms scratch) {ns : List NodeRef}
    (hns : ∀ n ∈ ns, ∀ c ∈ (g.node n).children, c ∈ g.listing root) {b : ℕ} (hb : b < 64) :
    Circuit.SameInputs g (inputs g ms planes scratch) (rowInputs g rows) ns b :=
  fun n hn c hc hkind hadd => inputs_eq_rowInputs hp hz (hns n hn c hc) hkind hadd hb

/-- Shifts keep their slots. -/
theorem ShiftsZero.of_kept {konst : NodeRef → Word} {ms : NodeMetas}
    (hcall : Callable caller planes g root ms konst) (hz : ShiftsZero g root ms scratch)
    {S : Scratch} (hS : ∀ j < 512, (∀ n ∈ g.adderNodes root, ∀ b < 64, j ≠ slotCell ms n b) →
      S j = scratch j) : ShiftsZero g root ms S := by
  intro n hn hadd b hb
  rw [hS _ (hcall.allocated.slotCell_lt hcall.arithmetic_le hn hb) fun m hm b' hb' heq => ?_]
  · exact hz n hn hadd b hb
  · obtain ⟨hmn, -⟩ := hcall.allocated.slotCell_inj hn (adderNodes_subset hm) hb hb' heq
    subst hmn
    rw [(mem_adderNodes.mp hm).2] at hadd
    exact absurd hadd (by simp)

/-- **A call of a compiled kernel** on 64 rows. -/
theorem call_compiled (hcompile : compile mode heap g (some root) st = (some code, st'))
    (hfits : Fits g mode root) (hpool : st'.pool ⊆ caller.pool)
    (hp : Presents mode g root st'.metas planes rows)
    (hkeeps : Keeps g mode root st'.metas scratch) :
    ∃ S, caller.callExpr code planes scratch =
        some (kernelMask g rows mode root (caller.regs .x2) (caller.regs .x3) (caller.regs .x5),
          S) ∧
      Keeps g mode root st'.metas S := by
  cases mode with
  | bitSliced =>
    obtain ⟨konst, rfl, hcall⟩ := callable_of_compile hcompile hpool hp.isSome
    obtain ⟨S, hrun, hS⟩ := callExpr_expressionCode scratch hcall
    have hmask := Circuit.mask_congr
      (fun b hb => sameInputs_rowInputs hp hkeeps (fun n hn c hc =>
        (g.postOrder_listing root).closed (mem_adderNodes.mp hn).1 hc) hb)
      (fun b hb => sameInputs_rowInputs hp hkeeps (fun n hn c hc => compared_reach hn hc) hb)
      (caller.regs .x2) (caller.regs .x3)
    refine ⟨S, ?_, hkeeps.of_kept hcall hS⟩
    rw [hrun, hmask]
    rfl
  | scalar =>
    obtain ⟨hfields, hnodes⟩ := hfits rfl
    rw [compile_scalar] at hcompile
    obtain ⟨hcode, hst⟩ := Prod.mk.inj hcompile
    obtain rfl := hst
    obtain ⟨-, hcall⟩ := scalarCallable_of_compile (compileScalarExpression_eq g root st.metas)
      hfields hnodes hp.isSome
    obtain rfl := Option.some.inj hcode
    obtain ⟨S, hrun⟩ := callExpr_scalarCode caller scratch hcall
    refine ⟨S, ?_, trivial⟩
    rw [hrun, kernelMask, Scalar.mask_congr fun k hk => sameLeaves_scalarLeaf hp hk]

end Call

section Lanes

variable {g : Graph} {root : NodeRef} {rows : ℕ → Graph.Row}

/-- The planes of the rows show them. -/
theorem rowInputs_lane {n : NodeRef} (hn : (g.kind n).resultKind = .bitplane)
    (hadd : (g.kind n).isAdder = false) {r b : ℕ} (hr : r < 64) (hb : b < 64) :
    (rowInputs g rows n b).getLsbD r = (g.slicedLeaf (rows r) n).getLsbD b := by
  unfold rowInputs Graph.slicedLeaf
  cases hk : g.kind n with
  | load => exact BitPlane.columnPlane_getLsbD _ b hr
  | const => exact BitPlane.shows_broadcast _ hr b hb
  | lsl | lsr => simp
  | add | sub => exact absurd hadd (by rw [hk]; decide)
  | _ => exact absurd hn (by rw [hk]; decide)

/-- **The mask of a well-typed expression**, whatever the registers contain. -/
theorem kernelMask_getLsbD (hw : g.WellTyped root) (mode : ExecutionMode) (x2 x3 x5 : Word) {r : ℕ}
    (hr : r < 64) :
    (kernelMask g rows mode root x2 x3 x5).getLsbD r = laneVerdict g rows mode root r := by
  cases mode with
  | bitSliced =>
    have hinp : ∀ n, IsValue g root n → (g.kind n).isAdder = false → ∀ b < 64,
        (rowInputs g rows n b).getLsbD r = (g.slicedLeaf (rows r) n).getLsbD b :=
      fun n hn hadd b hb => rowInputs_lane hn.2 hadd hr hb
    exact mask_lane hw hr hinp x2 x3
  | scalar =>
    have hleaf : ∀ k < 64, Scalar.SameLeaves g root (g.rowLeaf (rows k)) (g.rowLeaf (rows k)) :=
      fun _ _ _ _ _ => rfl
    have hmask := scalarMask_getLsbD hw hleaf x2 x3 x5 r
    have hverdict : laneVerdict g rows .scalar root r = true ↔
        ∃ j < 64, (g.scalarValue (rows j) root <<< j).getLsbD r = true := by
      simp only [laneVerdict, List.any_eq_true, List.mem_range]
    exact Bool.eq_iff_iff.mpr (hmask.trans hverdict.symm)

/-- Where the expression has a meaning in either mode, its kernels have it. -/
theorem laneVerdict_eq_truth (hw : g.WellTyped root) {mode : ExecutionMode}
    (hsliced : mode = .bitSliced →
      g.Over root conjunctiveKinds ∧ (collectComparisons g root).length ≤ 3)
    (hscalar : mode = .scalar → g.Over root scalarKinds) {r : ℕ} (hr : r < 64) :
    laneVerdict g rows mode root r = g.truth (rows r) root := by
  cases mode with
  | bitSliced =>
    obtain ⟨hover, hcount⟩ := hsliced rfl
    exact slicedTruth_eq_truth hw hover hcount
  | scalar =>
    have hwords : ∀ j < 64,
        g.scalarValue (rows j) root = if g.truth (rows j) root then 1 else 0 :=
      fun j _ => scalarValue_eq hw (hscalar rfl)
    rw [Bool.eq_iff_iff, ← exists_shiftLeft_iff hwords hr]
    simp only [laneVerdict, List.any_eq_true, List.mem_range]

end Lanes
end Jit
end ApexEngine
