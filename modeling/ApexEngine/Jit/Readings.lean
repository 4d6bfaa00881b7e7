import ApexEngine.Jit.ScalarConnectives
import ApexEngine.Jit.Shifts

/-!
# One expression, two readings

A compiler that has no code for a kind of node makes another expression out of the one it is
given, and the two compilers leave out different things.

* The bit-sliced kernel is the conjunction of the first three comparisons that are found
  through ANDs.  In these an equality never holds, a shift is zero, and a difference is one
  short in every lane but the first (`Graph.slicedReading`).
* The scalar kernel is the expression itself, in which negations, selections and shifts stand
  for the nodes listed right before them (`Graph.scalarReading`).

Both are functions of the graph and a row, with no code, block or scratchpad in them.  The
kernels of the two modes return the same masks exactly when the readings come to the same
truth on every row (`SameReading`, `readsAlike_iff`).

Without negations, selections and shifts the scalar reading is the truth of the expression
(`scalarReading_eq_truth`).  Without differences as well, the other is true when the first
three comparisons are, and none of them is an equality (`slicedReading_iff_of_additive`).
-/

namespace ApexEngine
namespace Jit

open A64 (Word)

/-- The kinds that are exact in every lane of either mode, as far as they are read. -/
def additiveKinds : List NodeKind := [.load, .const, .add, .gt, .lt, .eq, .and, .or]

namespace Graph

variable (g : Graph) (root : NodeRef)

/-- What a bit-sliced kernel reads in an expression, in a lane. -/
def slicedReading (lane : ℕ) (row : Row) : Bool :=
  (Circuit.compared g root).all (g.takenTruth .bitSliced root lane row)

/-- What a scalar kernel reads in an expression. -/
def scalarReading (row : Row) : Bool := (g.read root row root).getLsbD 0

/-- What a kernel of a mode reads in an expression, in a lane. -/
def kernelReading (mode : ExecutionMode) (lane : ℕ) (row : Row) : Bool :=
  match mode with
  | .bitSliced => g.slicedReading root lane row
  | .scalar => g.scalarReading root row

end Graph

/-- An expression that comes to the same in both readings, on every row and in every lane. -/
def SameReading (g : Graph) (root : NodeRef) : Prop :=
  ∀ (row : Graph.Row) (lane : ℕ), g.slicedReading root lane row = g.scalarReading root row

section Readings

variable {g : Graph} {root n : NodeRef} {row : Graph.Row} {lane : ℕ}

/-- The comparisons with registers are evaluated. -/
theorem evaluated_of_mem_compared (hn : n ∈ Circuit.compared g root) :
    Evaluated .bitSliced g root n where
  isComparison := by
    have hmem := List.mem_of_mem_take hn
    rw [collectComparisons_eq] at hmem
    exact (List.mem_filter.mp hmem).2
  mem_listing := (g.mem_listing root).mpr (mem_collectComparisons (List.mem_of_mem_take hn)).1
  register _ := hn

/-- The circuit decides what is read. -/
theorem slicedTruth_eq_reading (hw : g.WellTyped root) :
    g.slicedTruth row lane root = g.slicedReading root lane row := by
  rw [Graph.slicedTruth, Graph.slicedReading, Bool.eq_iff_iff, List.all_eq_true, List.all_eq_true]
  exact forall₂_congr fun n hn => by rw [verdict_eq_taken (evaluated_of_mem_compared hn) hw]

/-- So does the scalar code. -/
theorem scalarTruth_eq_reading (hw : g.WellTyped root) :
    g.scalarTruth row root = g.scalarReading root row := by
  rw [Graph.scalarTruth, scalarValue_eq_read hw, Graph.scalarReading]

/-- **The modes read alike** exactly when the readings are the same. -/
theorem readsAlike_iff (hw : g.WellTyped root) : ReadsAlike g root ↔ SameReading g root := by
  constructor
  · intro h row lane
    rw [← slicedTruth_eq_reading hw, ← scalarTruth_eq_reading hw, h.lane]
  · intro h row
    simp only [slicedTruth_eq_reading hw, scalarTruth_eq_reading hw, h row, and_self]

/-! ## The scalar reading -/

/-- The root is read as a truth value, when conditions without code follow conditions. -/
theorem read_eq_connect_taken (hw : g.WellTyped root) (hfollow : FollowMasks g (g.listing root))
    (lane : ℕ) : g.read root row root =
      if g.connect root (g.takenTruth .scalar root lane row) root then 1 else 0 := by
  have hdecided : ∀ n ∈ g.listing root, (g.kind n).isComparison = true →
      g.read root row n = if g.takenTruth .scalar root lane row n then 1 else 0 := by
    intro n hn hk
    have hevaluated : Evaluated .scalar g root n := ⟨hk, hn, fun h => absurd h (by decide)⟩
    exact read_eq_taken hevaluated hw lane
  exact read_eq_connect hw hfollow hdecided (g.root_mem_listing root) hw.mask

/-- It is what the connectives make of the comparisons on what is taken for their operands. -/
theorem scalarReading_eq_connect (hw : g.WellTyped root)
    (hfollow : FollowMasks g (g.listing root)) (lane : ℕ) :
    g.scalarReading root row = g.connect root (g.takenTruth .scalar root lane row) root := by
  rw [Graph.scalarReading, read_eq_connect_taken hw hfollow lane]
  split <;> simp_all

/-- **The verdict on a row** is what is read in it, when conditions without code follow
conditions. -/
theorem laneVerdict_eq_kernelReading (hw : g.WellTyped root) {mode : ExecutionMode}
    (hfollow : mode = .scalar → FollowMasks g (g.listing root)) {rows : ℕ → Graph.Row} {r : ℕ}
    (hr : r < 64) : laneVerdict g rows mode root r = g.kernelReading root mode r (rows r) := by
  cases mode with
  | bitSliced => exact slicedTruth_eq_reading hw
  | scalar =>
    refine laneVerdict_of_le_one hw (fun row => ?_) hr
    rw [read_eq_connect_taken hw (hfollow rfl) 0]
    split <;> decide

/-- Where every node has code, it is the truth of the expression. -/
theorem scalarReading_eq_truth (hw : g.WellTyped root) (hover : g.Over root scalarKinds) :
    g.scalarReading root row = g.truth row root := by
  rw [Graph.scalarReading, read_eq_word hw (g.root_mem_listing root) hover,
    Graph.word_of_bitmask hw.mask]
  cases g.truth row root <;> rfl

/-! ## The bit-sliced reading -/

/-- Without shifts below it a node keeps its value. -/
theorem unshifted_value_eq (h : ∀ m, g.Reach n m → (g.kind m).isShift = false) :
    g.unshifted.value row n = g.value row n := by
  induction n using g.induction with
  | h n ih =>
    have hnode := unshifted_node (h n .refl)
    have hchild : ∀ o : Option NodeRef, (∀ c, o = some c → c ∈ (g.node n).children) →
        o.map (g.unshifted.value row) = o.map (g.value row) := by
      intro o ho
      cases o with
      | none => rfl
      | some c =>
        rw [Option.map_some, Option.map_some, ih c (ho c rfl) fun m hm => h m (.head (ho c rfl) hm)]
    rw [Graph.value_eq, Graph.value_eq g, Graph.valueStep, Graph.valueStep, Graph.kind, hnode,
      hchild _ fun c hc => Node.mem_children.mpr (Or.inl hc),
      hchild _ fun c hc => Node.mem_children.mpr (Or.inr (Or.inl hc))]
    rfl

/-- Without differences below it a node misses nothing. -/
theorem borrows_eq_zero (h : ∀ m, g.Reach n m → g.kind m ≠ .sub) : g.borrows n = 0 := by
  induction n using g.induction with
  | h n ih =>
    have hchild : ∀ o : Option NodeRef, (∀ c, o = some c → c ∈ (g.node n).children) →
        (o.map g.borrows).getD 0 = 0 := by
      intro o ho
      cases o with
      | none => rfl
      | some c => exact ih c (ho c rfl) fun m hm => h m (.head (ho c rfl) hm)
    rw [g.borrows_eq, Graph.borrowsStep]
    cases hk : g.kind n with
    | add =>
      simp only
      rw [hchild _ fun c hc => Node.mem_children.mpr (Or.inl hc),
        hchild _ fun c hc => Node.mem_children.mpr (Or.inr (Or.inl hc)), add_zero]
    | sub => exact absurd hk (h n .refl)
    | _ => rfl

/-- What is taken for an operand is its value, without shifts and differences. -/
theorem takenOperand_eq_value (hover : g.Over root additiveKinds) (hn : n ∈ g.listing root)
    {operand : Option NodeRef} (hoperand : ∀ c, operand = some c → c ∈ (g.node n).children) :
    g.takenOperand .bitSliced root lane row operand = g.operandValue row operand := by
  cases operand with
  | none => rfl
  | some c =>
    have hkind : ∀ m, g.Reach c m → g.kind m ∈ additiveKinds := fun m hm =>
      hover m ((g.mem_listing root).mpr
        (((g.mem_listing root).mp hn).trans (.head (hoperand c rfl) hm)))
    have hvalue : g.taken .bitSliced root lane row c = g.value row c := by
      rw [Graph.taken, unshifted_value_eq fun m hm => ?_, Graph.laneBorrows,
        borrows_eq_zero fun m hm => ?_, ite_self]
      · exact BitVec.sub_zero _
      · intro hsub
        exact absurd (hkind m hm) (by rw [hsub]; decide)
      · have := hkind m hm
        revert this
        cases g.kind m <;> decide
    exact hvalue

/-- **The bit-sliced reading** without shifts and differences. -/
theorem slicedReading_iff_of_additive (hover : g.Over root additiveKinds) :
    g.slicedReading root lane row = true ↔
      ∀ n ∈ Circuit.compared g root, g.kind n ≠ .eq ∧ g.truth row n = true := by
  rw [Graph.slicedReading, List.all_eq_true]
  refine forall₂_congr fun n hn => ?_
  have hevaluated := evaluated_of_mem_compared hn
  rw [Graph.takenTruth,
    takenOperand_eq_value hover hevaluated.mem_listing fun c hc => Node.mem_children.mpr (Or.inl hc),
    takenOperand_eq_value hover hevaluated.mem_listing fun c hc =>
      Node.mem_children.mpr (Or.inr (Or.inl hc)),
    ← truth_of_isComparison hevaluated.isComparison, Bool.and_eq_true, decide_eq_true_iff, and_comm]
  simp

/-! ## Expressions that are read alike -/

/-- Where every node has code, the bit-sliced reading is compared with the truth. -/
theorem sameReading_iff_of_over (hw : g.WellTyped root) (hover : g.Over root scalarKinds) :
    SameReading g root ↔ ∀ row lane, g.slicedReading root lane row = g.truth row root :=
  forall₂_congr fun row lane => by rw [scalarReading_eq_truth hw hover]

/-- **Without differences, shifts, negations and selections**, an expression is read alike when
it says what its first three comparisons say together, and that none of them is an equality. -/
theorem sameReading_iff_of_additive (hw : g.WellTyped root) (hover : g.Over root additiveKinds) :
    SameReading g root ↔ ∀ row, g.truth row root = true ↔
      ∀ n ∈ Circuit.compared g root, g.kind n ≠ .eq ∧ g.truth row n = true := by
  have hscalar : g.Over root scalarKinds := fun n hn => by
    have := hover n hn
    revert this
    cases g.kind n <;> decide
  rw [sameReading_iff_of_over hw hscalar]
  constructor
  · intro h row
    rw [← h row 0, slicedReading_iff_of_additive hover]
  · intro h row lane
    rw [Bool.eq_iff_iff, slicedReading_iff_of_additive hover, h row]

end Readings
end Jit
end ApexEngine
