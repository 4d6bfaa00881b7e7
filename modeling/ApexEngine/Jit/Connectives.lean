import ApexEngine.Jit.Conjunction

/-!
# Disjunctions, negations and selections in bit-sliced mode

The analysis gives OR, NOT and SELECT the result kind of a mask, so an expression with
them is accepted, and the builder makes them.  The bit-sliced compiler has no code for
them.  It collects the comparisons it reaches through ANDs, and what lies below another
connective is not reached: the connective has no effect on the mask, as if it were true.

What the mask should be is the truth of the expression on every row (`RightMask`).  It
is, exactly when the comparisons with registers, as they are decided, say what all
conjuncts say together (`rightMask_iff`).  Two cases are worth having by themselves.  A
connective at the root is compiled to all ones, which is right when it is true on every
row.  And next to comparisons that are decided as they should, it is right when these
imply it.
-/

namespace ApexEngine
namespace Jit

open A64 (Word)

/-- The connectives that have no code in bit-sliced mode. -/
def NodeKind.isUnreached : NodeKind → Bool
  | .or | .not | .select => true
  | _ => false

/-- On every 64 rows the mask of a kernel is the truth of the expression. -/
def RightMask {g : Graph} {root : NodeRef} (k : SlicedKernel g root) : Prop :=
  ∀ rows : ℕ → Graph.Row, ∃ m, k.Returns rows m ∧ ∀ r < 64, m.getLsbD r = g.truth (rows r) root

section Truth

variable {g : Graph} {root n : NodeRef} {row : Graph.Row}

/-- An expression is true when its conjuncts are. -/
theorem all_conjuncts (hw : g.WellTyped root) (hn : n ∈ g.listing root) :
    (g.conjuncts n).all (g.truth row) = g.truth row n := by
  induction n using g.induction with
  | h n ih =>
    by_cases hk : g.kind n = .and
    · obtain ⟨l, hl, hlmem, -⟩ := hw.left hn (by rw [hk]; rfl)
      obtain ⟨r, hr, hrmem, -⟩ := hw.right hn (by rw [hk]; rfl)
      rw [conjuncts_of_and hk hl hr, List.all_append,
        ih l (Node.mem_children.mpr (Or.inl hl)) hlmem,
        ih r (Node.mem_children.mpr (Or.inr (Or.inl hr))) hrmem, g.truth_eq row n,
        Graph.truthStep, hk, hl, hr]
      rfl
    · rw [conjuncts_of_ne_and hk]
      simp

theorem truth_iff_conjuncts (hw : g.WellTyped root) :
    g.truth row root = true ↔ ∀ n ∈ g.conjuncts root, g.truth row n = true := by
  rw [← all_conjuncts hw (g.root_mem_listing root), List.all_eq_true]

theorem conjuncts_of_isUnreached (hk : (g.kind root).isUnreached = true) :
    g.conjuncts root = [root] :=
  conjuncts_of_ne_and fun h => absurd hk (by rw [h]; decide)

/-- Nothing is compared below a connective at the root. -/
theorem compared_of_isUnreached (hk : (g.kind root).isUnreached = true) :
    Circuit.compared g root = [] := by
  have hcmp : (g.kind root).isComparison = false := by
    cases hkind : g.kind root <;> simp_all [NodeKind.isUnreached, NodeKind.isComparison]
  rw [Circuit.compared, collectComparisons_eq, conjuncts_of_isUnreached hk, List.filter_singleton,
    hcmp]
  rfl

/-- The comparisons with registers are conjuncts. -/
theorem mem_conjuncts_of_compared (hn : n ∈ Circuit.compared g root) : n ∈ g.conjuncts root := by
  have hmem := List.mem_of_mem_take hn
  rw [collectComparisons_eq] at hmem
  exact List.mem_of_mem_filter hmem

end Truth

section Masks

variable {g : Graph} {root : NodeRef}

/-- **The mask in a lane**: what the comparisons with registers decide there. -/
theorem SlicedKernel.mask_getLsbD (k : SlicedKernel g root) (hw : g.WellTyped root)
    (rows : ℕ → Graph.Row) {r : ℕ} (hr : r < 64) :
    (k.mask rows).getLsbD r =
      (Circuit.compared g root).all (Circuit.verdict g (g.slicedLeaf (rows r)) r) :=
  kernelMask_getLsbD hw .bitSliced (k.caller.regs .x2) (k.caller.regs .x3) 0 hr

/-- The masks are right when the decisions on single rows are. -/
theorem rightMask_iff_decided (k : SlicedKernel g root) (hw : g.WellTyped root) :
    RightMask k ↔ ∀ row : Graph.Row, ∀ r < 64,
      ((∀ n ∈ Circuit.compared g root, Circuit.verdict g (g.slicedLeaf row) r n = true) ↔
        ∀ n ∈ g.conjuncts root, g.truth row n = true) := by
  have hlane : ∀ rows : ℕ → Graph.Row, ∀ r < 64,
      ((k.mask rows).getLsbD r = g.truth (rows r) root ↔
        ((∀ n ∈ Circuit.compared g root,
            Circuit.verdict g (g.slicedLeaf (rows r)) r n = true) ↔
          ∀ n ∈ g.conjuncts root, g.truth (rows r) n = true)) := fun rows r hr => by
    rw [k.mask_getLsbD hw rows hr, Bool.eq_iff_iff, List.all_eq_true, truth_iff_conjuncts hw]
  constructor
  · intro h row r hr
    obtain ⟨m, hm, htruth⟩ := h fun _ => row
    rw [k.returns_iff.mp hm] at htruth
    exact (hlane _ r hr).mp (htruth r hr)
  · exact fun h rows => ⟨_, k.returns_iff.mpr rfl, fun r hr => (hlane rows r hr).mpr (h (rows r) r hr)⟩

/-- A connective at the root is right when it is true on every row. -/
theorem rightMask_iff_valid (k : SlicedKernel g root) (hw : g.WellTyped root)
    (hk : (g.kind root).isUnreached = true) :
    RightMask k ↔ ∀ row : Graph.Row, g.truth row root = true := by
  rw [rightMask_iff_decided k hw, compared_of_isUnreached hk, conjuncts_of_isUnreached hk]
  simp only [List.not_mem_nil, false_implies, implies_true, true_iff, List.mem_singleton,
    forall_eq]
  exact forall_congr' fun row => ⟨fun h => h 0 (by omega), fun h _ _ => h⟩

/-- The comparisons with registers compare sums that miss nothing. -/
def DecidedRight (g : Graph) (root : NodeRef) : Prop :=
  ∀ n ∈ Circuit.compared g root, ∃ lesser greater, g.Compares n lesser greater ∧
    g.borrows lesser = 0 ∧ g.borrows greater = 0

/-- Next to comparisons that are decided as they should, a connective is right when they
imply it. -/
theorem rightMask_iff_implied (k : SlicedKernel g root) (hw : g.WellTyped root)
    (hright : DecidedRight g root) :
    RightMask k ↔ ∀ row : Graph.Row,
      (∀ n ∈ Circuit.compared g root, g.truth row n = true) →
        ∀ n ∈ g.conjuncts root, g.truth row n = true := by
  rw [rightMask_iff_decided k hw]
  have hverdict : ∀ (row : Graph.Row) r, (∀ n ∈ Circuit.compared g root,
      Circuit.verdict g (g.slicedLeaf row) r n = true) ↔
        ∀ n ∈ Circuit.compared g root, g.truth row n = true := fun row r =>
    forall₂_congr fun n hn => by
      obtain ⟨lesser, greater, h, hl, hg⟩ := hright n hn
      rw [h.verdict_eq_truth hl hg]
  constructor
  · exact fun h row hall => (h row 0 (by omega)).mp ((hverdict row 0).mpr hall)
  · exact fun h row r _ => ⟨fun hall => h row ((hverdict row r).mp hall),
      fun hall => (hverdict row r).mpr fun n hn => hall n (mem_conjuncts_of_compared hn)⟩

/-- **Where connectives are compiled to what they mean**: where the comparisons with
registers, as they are decided on each row and in each lane, hold together exactly if all
conjuncts do; for a connective at the root, where it is true on every row; next to
comparisons that are decided as they should, where these imply all conjuncts. -/
theorem rightMask_iff (k : SlicedKernel g root) (hw : g.WellTyped root) :
    (RightMask k ↔ ∀ row : Graph.Row, ∀ r < 64,
      ((∀ n ∈ Circuit.compared g root, Circuit.verdict g (g.slicedLeaf row) r n = true) ↔
        ∀ n ∈ g.conjuncts root, g.truth row n = true)) ∧
    ((g.kind root).isUnreached = true →
      (RightMask k ↔ ∀ row : Graph.Row, g.truth row root = true)) ∧
    (DecidedRight g root →
      (RightMask k ↔ ∀ row : Graph.Row,
        (∀ n ∈ Circuit.compared g root, g.truth row n = true) →
          ∀ n ∈ g.conjuncts root, g.truth row n = true)) :=
  ⟨rightMask_iff_decided k hw, rightMask_iff_valid k hw, rightMask_iff_implied k hw⟩

end Masks

/-! ## A negation -/

/-- The nodes of `OR(a > 5, NOT(a > 5))`; the negation is node 3. -/
def excludedNode : ℕ → Node
  | 0 => { kind := .load, fieldName := [97] }
  | 1 => { kind := .const, constValue := 5 }
  | 2 => { kind := .gt, left := some 0, right := some 1 }
  | 3 => { kind := .not, left := some 2 }
  | 4 => { kind := .or, left := some 2, right := some 3 }
  | _ => { kind := .load }

/-- The graph of these nodes.  The root of the disjunction is node 4. -/
def excludedGraph : Graph where
  node := excludedNode
  rank := id
  rank_lt i c hc := by
    unfold excludedNode at hc
    split at hc <;> simp [Node.children] at hc
    · rcases hc with rfl | rfl <;> decide
    · rw [hc]
      decide
    · rcases hc with rfl | rfl <;> decide

/-- `OR(a > 5, NOT(a > 5))` is true on every row. -/
theorem rightMask_iff_excluded : ∃ k : SlicedKernel excludedGraph 4, RightMask k := by
  obtain ⟨k⟩ := @SlicedKernel.nonempty excludedGraph 4 [5] (by decide) rfl (by decide)
  refine ⟨k, ((rightMask_iff k (by decide)).2.1 rfl).mpr fun row => ?_⟩
  have htruth : excludedGraph.truth row 4 =
      (excludedGraph.truth row 2 || !excludedGraph.truth row 2) := rfl
  rw [htruth, Bool.or_not_self]

/-- **A negation without effect**: the kernel of `NOT(a > 5)` returns all ones on rows with
`a = 7`. -/
theorem rightMask_negation : ¬ ∀ (g : Graph) (root : NodeRef) (k : SlicedKernel g root),
    g.WellTyped root → (g.kind root).isUnreached = true → RightMask k := by
  intro h
  obtain ⟨k⟩ := @SlicedKernel.nonempty excludedGraph 3 [5] (by decide) rfl (by decide)
  have hw : excludedGraph.WellTyped 3 := by decide
  have hvalid := (rightMask_iff_valid k hw rfl).mp (h excludedGraph 3 k hw rfl) fun _ => 7
  exact absurd hvalid (by decide)

end Jit
end ApexEngine
