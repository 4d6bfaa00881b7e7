import ApexEngine.Jit.Compiled

/-!
# The two modes on one expression

The compilers read an expression in two ways.  The bit-sliced one takes the first three
comparisons it finds through conjunctions (`Graph.slicedTruth`), the scalar one
evaluates the listed nodes one after another (`Graph.scalarTruth`).  The kernels return
the same masks exactly when the two readings of every single row are the same, in the
first lane and in any other: `ReadsAlike`, `forall_laneVerdict_iff`.

The scalar kernel shifts a whole word into the mask, so a word that is not zero or one
would reach other rows.  It never does where it matters: if a comparison is found, the
word is at most one (`scalarValue_le_one`), and if none is, the bit-sliced kernel
accepts every row.
-/

namespace ApexEngine
namespace Jit

open A64 (Word)

/-- What a scalar kernel decides about a row: the last bit of the word of the root. -/
def Graph.scalarTruth (g : Graph) (row : Graph.Row) (root : NodeRef) : Bool :=
  (g.scalarValue row root).getLsbD 0

/-- Both readings of a row are the same.  The first lane is another one than the others
because subtractions are only there what they should be. -/
def ReadsAlike (g : Graph) (root : NodeRef) : Prop :=
  ∀ row : Graph.Row, g.slicedTruth row 0 root = g.scalarTruth row root ∧
    g.slicedTruth row 1 root = g.scalarTruth row root

section Readings

variable {g : Graph} {root : NodeRef} {row : Graph.Row}

/-- All lanes but the first read alike. -/
theorem laneValue_of_pos (leaf : NodeRef → Word) {lane : ℕ} (hlane : lane ≠ 0) :
    Circuit.laneValue g leaf lane = Circuit.laneValue g leaf 1 := by
  have hstep : Circuit.laneStep g leaf lane = Circuit.laneStep g leaf 1 := by
    funext n left right cond
    simp only [Circuit.laneStep, hlane, if_false, Nat.one_ne_zero]
  rw [Circuit.laneValue, hstep, Circuit.laneValue]

theorem slicedTruth_of_pos {lane : ℕ} (hlane : lane ≠ 0) :
    g.slicedTruth row lane root = g.slicedTruth row 1 root := by
  have hverdict : Circuit.verdict g (g.slicedLeaf row) lane =
      Circuit.verdict g (g.slicedLeaf row) 1 := by
    funext n
    unfold Circuit.verdict Circuit.operandValue
    rw [laneValue_of_pos _ hlane]
  rw [Graph.slicedTruth, hverdict, Graph.slicedTruth]

theorem ReadsAlike.lane (h : ReadsAlike g root) (row : Graph.Row) (lane : ℕ) :
    g.slicedTruth row lane root = g.scalarTruth row root := by
  by_cases hlane : lane = 0
  · rw [hlane]
    exact (h row).1
  · rw [slicedTruth_of_pos hlane]
    exact (h row).2

/-- Where the expression has a meaning in both modes, they read it alike. -/
theorem readsAlike_of_conjunctive (hw : g.WellTyped root) (hover : g.Over root conjunctiveKinds)
    (hcount : (collectComparisons g root).length ≤ 3) : ReadsAlike g root := by
  have hscalar : g.Over root scalarKinds := by
    intro n hn
    have := hover n hn
    simp only [conjunctiveKinds, scalarKinds, List.mem_cons, List.not_mem_nil, or_false] at this ⊢
    tauto
  have htruth : ∀ row, g.scalarTruth row root = g.truth row root := by
    intro row
    rw [Graph.scalarTruth, scalarValue_eq hw hscalar]
    cases g.truth row root <;> rfl
  intro row
  rw [htruth, slicedTruth_eq_truth hw hover hcount, slicedTruth_eq_truth hw hover hcount]
  exact ⟨rfl, rfl⟩

/-! ## The word of the root -/

/-- A comparison is zero or one, and a conjunction is at most what its operands are. -/
theorem scalarValue_le_one (hw : g.WellTyped root) (hne : collectComparisons g root ≠ []) :
    (g.scalarValue row root).toNat ≤ 1 := by
  refine scalarValue_induction (C := fun n w => collectComparisons g n ≠ [] → w.toNat ≤ 1) ?_ hne
  intro p n q s hsplit h _ hfound
  have hpost := g.postOrder_listing root
  rw [hsplit] at hpost
  -- an operand in which a comparison is found is fetched from its cell
  have hfetch : ∀ c ∈ (g.node n).children, collectComparisons g c ≠ [] → ∀ stale,
      (Scalar.fetch g (g.rowLeaf row) s.cell (some c) stale).toNat ≤ 1 := by
    intro c hc hcne stale
    rw [Scalar.fetch_inner ?_]
    · exact h c (hpost.children_mem c hc) hcne
    · rintro (hk | hk) <;>
        exact hcne (by rw [collectComparisons, g.fold_eq]; simp only [hk])
  have hn : n ∈ g.listing root := by
    rw [hsplit]
    simp
  simp only [Scalar.evalNode, Scalar.result]
  cases hk : g.kind n with
  | gt | lt | eq => simp only; split <;> decide
  | and =>
    obtain ⟨l, hl, -, -⟩ := hw.left hn (by rw [hk]; rfl)
    obtain ⟨r, hr, -, -⟩ := hw.right hn (by rw [hk]; rfl)
    rw [collectComparisons, g.fold_eq, hk, hl, hr] at hfound
    simp only [hl, hr]
    rw [BitVec.toNat_and]
    by_cases hlne : collectComparisons g l = []
    · have hrne : collectComparisons g r ≠ [] := fun hrnil => hfound (by
        simp only [Option.map_some, Option.getD_some]
        exact List.append_eq_nil_iff.mpr ⟨hlne, hrnil⟩)
      exact Nat.and_le_right.trans
        (hfetch r (Node.mem_children.mpr (Or.inr (Or.inl hr))) hrne _)
    · exact Nat.and_le_left.trans (hfetch l (Node.mem_children.mpr (Or.inl hl)) hlne _)
  | _ => exact absurd (by rw [collectComparisons, g.fold_eq]; simp only [hk]) hfound

/-- A word that is at most one is decided by its last bit. -/
theorem eq_ite_of_le_one {w : Word} (hle : w.toNat ≤ 1) : w = if w.getLsbD 0 then 1 else 0 := by
  have hw : w = 0 ∨ w = 1 := by
    rcases Nat.le_one_iff_eq_zero_or_eq_one.mp hle with h | h
    · exact Or.inl (BitVec.eq_of_toNat_eq h)
    · exact Or.inr (BitVec.eq_of_toNat_eq h)
  rcases hw with rfl | rfl <;> rfl

/-- So it is the truth value that is decided. -/
theorem scalarValue_eq_ite (hw : g.WellTyped root) (hne : collectComparisons g root ≠ []) :
    g.scalarValue row root = if g.scalarTruth row root then 1 else 0 :=
  eq_ite_of_le_one (scalarValue_le_one hw hne)

end Readings

/-! ## Masks -/

section Masks

variable {g : Graph} {root : NodeRef} {rows : ℕ → Graph.Row}

theorem laneVerdict_scalar_iff (r : ℕ) : laneVerdict g rows .scalar root r = true ↔
    ∃ j < 64, (g.scalarValue (rows j) root <<< j).getLsbD r = true := by
  simp only [laneVerdict, List.any_eq_true, List.mem_range]

/-- A lane of the scalar kernel is decided by its row, when a comparison is found. -/
theorem laneVerdict_scalar (hw : g.WellTyped root) (hne : collectComparisons g root ≠ []) {r : ℕ}
    (hr : r < 64) : laneVerdict g rows .scalar root r = g.scalarTruth (rows r) root :=
  Bool.eq_iff_iff.mpr ((laneVerdict_scalar_iff r).trans
    (exists_shiftLeft_iff (fun _ _ => scalarValue_eq_ite hw hne) hr))

/-- A row that is accepted is accepted in its lane. -/
theorem laneVerdict_of_scalarTruth {r : ℕ} (hr : r < 64)
    (h : g.scalarTruth (rows r) root = true) : laneVerdict g rows .scalar root r = true := by
  refine (laneVerdict_scalar_iff r).mpr ⟨r, hr, ?_⟩
  rw [BitVec.getLsbD_shiftLeft, Nat.sub_self, ← Graph.scalarTruth, h, decide_eq_true hr,
    decide_eq_false (Nat.lt_irrefl r)]
  rfl

/-- Only the first row reaches the first lane. -/
theorem laneVerdict_scalar_zero : laneVerdict g rows .scalar root 0 = g.scalarTruth (rows 0) root := by
  refine Bool.eq_iff_iff.mpr ((laneVerdict_scalar_iff 0).trans ⟨?_, fun h => ⟨0, by omega, ?_⟩⟩)
  · rintro ⟨j, hj, hbit⟩
    rw [BitVec.getLsbD_shiftLeft] at hbit
    obtain rfl : j = 0 := by
      by_contra hne
      simp [Nat.pos_of_ne_zero hne] at hbit
    rw [decide_eq_false (Nat.lt_irrefl 0), Nat.sub_self, ← Graph.scalarTruth] at hbit
    exact hbit
  · rw [BitVec.shiftLeft_zero]
    exact h

/-- **The modes decide all rows alike exactly when they read single rows alike.** -/
theorem forall_laneVerdict_iff (hw : g.WellTyped root) :
    (∀ rows : ℕ → Graph.Row, ∀ r < 64,
      laneVerdict g rows .bitSliced root r = laneVerdict g rows .scalar root r) ↔
    ReadsAlike g root := by
  by_cases hne : collectComparisons g root = []
  · have hall : ∀ row lane, g.slicedTruth row lane root = true := fun row lane => by
      rw [Graph.slicedTruth, Circuit.compared, hne]
      rfl
    constructor
    · intro h row
      have hzero := h (fun _ => row) 0 (by omega)
      rw [laneVerdict_scalar_zero, laneVerdict, hall] at hzero
      rw [hall, hall]
      exact ⟨hzero, hzero⟩
    · intro h rows r hr
      have htrue : laneVerdict g rows .scalar root r = true :=
        laneVerdict_of_scalarTruth hr ((h.lane (rows r) r).symm.trans (hall _ _))
      rw [htrue]
      exact hall _ _
  · constructor
    · intro h row
      have hlane : ∀ r < 64, g.slicedTruth row r root = g.scalarTruth row root := fun r hr => by
        have hscalar : laneVerdict g (fun _ => row) .scalar root r = g.scalarTruth row root :=
          laneVerdict_scalar hw hne hr
        rw [← hscalar, ← h _ r hr]
        rfl
      exact ⟨hlane 0 (by omega), hlane 1 (by omega)⟩
    · intro h rows r hr
      rw [laneVerdict_scalar hw hne hr, ← h.lane (rows r) r]
      rfl

/-- **The kernels return the same masks exactly when the modes read alike**, whatever the
registers contain they are entered with. -/
theorem forall_kernelMask_iff (hw : g.WellTyped root) (x2 x3 x5 : Word) :
    (∀ rows : ℕ → Graph.Row, kernelMask g rows .bitSliced root x2 x3 x5 =
      kernelMask g rows .scalar root x2 x3 x5) ↔ ReadsAlike g root := by
  rw [← forall_laneVerdict_iff hw]
  refine forall_congr' fun rows => ⟨fun h r hr => ?_, fun h => ?_⟩
  · rw [← kernelMask_getLsbD hw .bitSliced x2 x3 x5 hr, h,
      kernelMask_getLsbD hw .scalar x2 x3 x5 hr]
  · refine BitVec.eq_of_getLsbD_eq fun r hr => ?_
    rw [kernelMask_getLsbD hw .bitSliced x2 x3 x5 hr, kernelMask_getLsbD hw .scalar x2 x3 x5 hr,
      h r hr]

end Masks

/-! ## Calls -/

section Calls

variable {mode : ExecutionMode} {heap : ℕ → Word} {g : Graph} {root : NodeRef}
  {st st' : CompileState} {code : List A64.Item}

/-- The planes of 64 rows: the column of a field is under its index. -/
def presented (mode : ExecutionMode) (g : Graph) (root : NodeRef) (rows : ℕ → Graph.Row) : Planes :=
  fun i =>
    let column := fun r => rows r ((g.fieldNames root).getD i [])
    some (match mode with
      | .bitSliced => BitPlane.columnPlane column
      | .scalar => column)

/-- Every compiled kernel can be given any 64 rows. -/
theorem presents_presented (hcompile : compile mode heap g (some root) st = (some code, st'))
    (rows : ℕ → Graph.Row) :
    Presents mode g root st'.metas (presented mode g root rows) rows := by
  intro n hn
  obtain ⟨hmem, hk⟩ := (g.mem_loadNodes root).mp hn
  refine ⟨_, rfl, ?_⟩
  have hname : (g.fieldNames root).getD (st'.metas n).fieldIdx.toNat [] =
      (g.node n).fieldName := by
    rw [fieldIdx_of_compile hcompile hn, Int.toNat_natCast, List.getD_eq_getElem?_getD,
      List.getElem?_idxOf (Graph.name_mem_fieldNames hmem hk), Option.getD_some]
  rw [hname]
  cases mode with
  | bitSliced => exact fun r hr b _ => BitPlane.columnPlane_getLsbD _ b hr
  | scalar => exact fun r _ => rfl

end Calls
end Jit
end ApexEngine
