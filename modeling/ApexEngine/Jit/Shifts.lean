import ApexEngine.Jit.StandIns
import ApexEngine.Jit.Trichotomy

/-!
# Shifts

A shift by `s` is a value: `x * 2 ^ s` modulo `2 ^ 64`, or `x / 2 ^ s`
(`toNat_value_of_lsl`, `toNat_value_of_lsr`).  Both compilers accept it.  It should cost
no instructions in bit-sliced mode, where it is another numbering of the planes, and one in
scalar mode; it gets a slot in the scratchpad and a place in the list of nodes, and no code
in either mode.

* In bit-sliced mode its slot is read and never written, so it is zero.  The expression in
  which every shift is the constant zero is `Graph.unshifted`, and what the circuit has for
  a node is its value there, less the borrows that subtractions take in every lane but the
  first (`laneValue_eq_unshifted`).
* In scalar mode it is what the node listed before it is: `x` unshifted if `x` was listed
  right there (`Graph.read`).

These two are `Graph.taken`, and every comparison that a kernel evaluates is decided on
what is taken for its operands (`decision_eq_taken`).  A listed comparison is evaluated and
decided as it should exactly when it is evaluated and this comes out the same as with the
values; the mask is the conjunction of what is decided, or what the connectives make of it
(`shifts_iff`).
-/

namespace ApexEngine
namespace Jit

open A64 (Word)

/-- The kinds of shifts. -/
def NodeKind.isShift : NodeKind → Bool
  | .lsl | .lsr => true
  | _ => false

theorem NodeKind.of_isShift {k : NodeKind} (h : k.isShift = true) :
    k.isAdder = false ∧ k.hasCode = false := by
  revert h
  cases k <;> decide

theorem NodeKind.isShift_of_isAdder {k : NodeKind} (h : k.isAdder = true) : k.isShift = false := by
  revert h
  cases k <;> decide

/-- A comparison has code and asks for two values. -/
theorem NodeKind.of_isComparison {k : NodeKind} (h : k.isComparison = true) :
    k.hasCode = true ∧ k.leftKind = some .bitplane ∧ k.rightKind = some .bitplane := by
  revert h
  cases k <;> decide

namespace Graph

variable (g : Graph)

/-- A shift becomes the constant zero. -/
def unshiftedNode (n : NodeRef) : Node :=
  if (g.kind n).isShift = true then { kind := .const, constValue := 0 } else g.node n

theorem rank_unshifted {n c : NodeRef} (hc : c ∈ (g.unshiftedNode n).children) :
    g.rank c < g.rank n := by
  unfold unshiftedNode at hc
  split at hc
  · simp [Node.children] at hc
  · exact g.rank_lt n c hc

/-- The expression in which every shift is the constant zero. -/
def unshifted : Graph := ⟨g.unshiftedNode, g.rank, fun _ _ hc => g.rank_unshifted hc⟩

/-- **What a kernel takes for the value of a node** in a lane of the row: in bit-sliced mode
shifts are zero and differences are short, in scalar mode shifts are what is listed before
them. -/
def taken (mode : ExecutionMode) (root : NodeRef) (lane : ℕ) (row : Row) (n : NodeRef) : Word :=
  match mode with
  | .bitSliced => g.unshifted.value row n - BitVec.ofInt 64 (g.laneBorrows lane n)
  | .scalar => g.read root row n

/-- What is taken for an operand. -/
def takenOperand (mode : ExecutionMode) (root : NodeRef) (lane : ℕ) (row : Row)
    (operand : Option NodeRef) : Word :=
  (operand.map (g.taken mode root lane row)).getD 0

/-- What a comparison comes to on what is taken for its operands.  A bit-sliced equality never
holds. -/
def takenTruth (mode : ExecutionMode) (root : NodeRef) (lane : ℕ) (row : Row) (n : NodeRef) :
    Bool :=
  (g.kind n).holds (g.takenOperand mode root lane row (g.node n).left)
    (g.takenOperand mode root lane row (g.node n).right) &&
  decide (mode = .scalar ∨ g.kind n ≠ .eq)

end Graph

/-- A comparison that a kernel evaluates: in bit-sliced mode one with registers, in scalar
mode any. -/
structure Evaluated (mode : ExecutionMode) (g : Graph) (root n : NodeRef) : Prop where
  isComparison : (g.kind n).isComparison = true
  mem_listing : n ∈ g.listing root
  register : mode = .bitSliced → n ∈ Circuit.compared g root

/-! ## What a shift means -/

section Meaning

variable {g : Graph} {n x : NodeRef} {row : Graph.Row}

theorem toNat_value_of_lsl (hk : g.kind n = .lsl) (hl : (g.node n).left = some x) :
    (g.value row n).toNat =
      (g.value row x).toNat * 2 ^ (g.node n).shiftAmount.toNat % 2 ^ 64 := by
  rw [g.value_eq, Graph.valueStep, hk, hl]
  simp only [Option.map_some, Option.getD_some, BitVec.toNat_shiftLeft, Nat.shiftLeft_eq]

theorem toNat_value_of_lsr (hk : g.kind n = .lsr) (hl : (g.node n).left = some x) :
    (g.value row n).toNat = (g.value row x).toNat / 2 ^ (g.node n).shiftAmount.toNat := by
  rw [g.value_eq, Graph.valueStep, hk, hl]
  simp only [Option.map_some, Option.getD_some, BitVec.toNat_ushiftRight, Nat.shiftRight_eq_div_pow]

/-- What a comparison means, by its kind. -/
theorem truth_of_isComparison (h : (g.kind n).isComparison = true) :
    g.truth row n = (g.kind n).holds (g.operandValue row (g.node n).left)
      (g.operandValue row (g.node n).right) := by
  rw [g.truth_eq, Graph.truthStep]
  cases hk : g.kind n with
  | gt | lt | eq => rfl
  | _ => exact absurd h (by rw [hk]; decide)

end Meaning

/-! ## What is taken for a node -/

section Taken

variable {mode : ExecutionMode} {g : Graph} {root n left right : NodeRef} {row : Graph.Row}
  {lane : ℕ}

theorem unshifted_node (h : (g.kind n).isShift = false) : g.unshifted.node n = g.node n :=
  if_neg (by rw [h]; decide)

/-- A shift is zero without shifts. -/
theorem unshifted_value_of_isShift (h : (g.kind n).isShift = true) :
    g.unshifted.value row n = 0 := by
  have hnode : g.unshifted.node n = { kind := .const, constValue := 0 } := if_pos h
  rw [Graph.value_eq, Graph.valueStep, Graph.kind, hnode]

/-- **What the circuit has for a value** in a lane. -/
theorem laneValue_eq_unshifted (hw : g.WellTyped root) (hn : IsValue g root n) :
    Circuit.laneValue g (g.slicedLeaf row) lane n = g.taken .bitSliced root lane row n := by
  rw [Graph.taken]
  induction n using g.induction with
  | h n ih =>
    by_cases hadd : (g.kind n).isAdder = true
    · obtain ⟨l, r, hl, hr, hgl, hgr⟩ := (values_of_wellTyped hw).operands n hn hadd
      rw [laneValue_adder_sub hadd hl hr (ih l (Node.mem_children.mpr (Or.inl hl)) hgl)
        (ih r (Node.mem_children.mpr (Or.inr (Or.inl hr))) hgr)]
      have hnode := unshifted_node (NodeKind.isShift_of_isAdder hadd)
      have hkind : g.unshifted.kind n = g.kind n := congrArg Node.kind hnode
      rw [← hnode] at hl hr
      rcases NodeKind.isAdder_iff.mp hadd with hk | hk
      · rw [if_pos hk, value_of_add (hkind.trans hk) hl hr]
      · rw [if_neg (by rw [hk]; decide), value_of_sub (hkind.trans hk) hl hr]
    · have hadd : (g.kind n).isAdder = false := by simpa using hadd
      have hzero : g.laneBorrows lane n = 0 := by
        rw [Graph.laneBorrows, borrows_of_not_adder hadd, ite_self]
      rw [Circuit.laneValue_of_not_adder hadd, hzero]
      by_cases hshift : (g.kind n).isShift = true
      · rw [unshifted_value_of_isShift hshift, Graph.slicedLeaf]
        cases hk : g.kind n <;> first | rfl | exact absurd hshift (by rw [hk]; decide)
      · rw [Graph.value_eq, Graph.valueStep, Graph.kind, unshifted_node (by simpa using hshift),
          Graph.slicedLeaf, ← Graph.kind]
        have hvalue := hn.2
        cases hk : g.kind n <;> simp_all [NodeKind.isAdder, NodeKind.isShift, NodeKind.resultKind]

/-- In bit-sliced mode a shift is taken to be zero. -/
theorem taken_of_isShift (h : (g.kind n).isShift = true) :
    g.taken .bitSliced root lane row n = 0 := by
  rw [Graph.taken, unshifted_value_of_isShift h, Graph.laneBorrows,
    borrows_of_not_adder (NodeKind.of_isShift h).1, ite_self]
  rfl

/-- In scalar mode a shift that is listed right after a node is taken to be this node. -/
theorem taken_of_before {x : NodeRef} (hn : n ∈ g.listing root) (h : (g.kind n).isShift = true)
    (hbefore : g.before root n = some x) :
    g.taken .scalar root lane row n = g.taken .scalar root lane row x :=
  read_of_before hn (NodeKind.of_isShift h).2 hbefore

/-- A comparison that is evaluated has two values for operands. -/
theorem Evaluated.operands (h : Evaluated mode g root n) (hw : g.WellTyped root) :
    ∃ l r, (g.node n).left = some l ∧ (g.node n).right = some r ∧ IsValue g root l ∧
      IsValue g root r := by
  obtain ⟨-, hleft, hright⟩ := NodeKind.of_isComparison h.isComparison
  obtain ⟨l, hl, hlmem, hlk⟩ := hw.left h.mem_listing hleft
  obtain ⟨r, hr, hrmem, hrk⟩ := hw.right h.mem_listing hright
  exact ⟨l, r, hl, hr, ⟨hlmem, hlk⟩, hrmem, hrk⟩

/-- The bit-sliced comparator decides on what is taken. -/
theorem verdict_eq_taken (h : Evaluated mode g root n) (hw : g.WellTyped root) :
    Circuit.verdict g (g.slicedLeaf row) lane n = g.takenTruth .bitSliced root lane row n := by
  obtain ⟨l, r, hl, hr, hvl, hvr⟩ := h.operands hw
  have hcmp := h.isComparison
  rw [Graph.takenTruth, Graph.takenOperand, Graph.takenOperand, hl, hr, Option.map_some,
    Option.map_some, Option.getD_some, Option.getD_some, ← laneValue_eq_unshifted hw hvl,
    ← laneValue_eq_unshifted hw hvr, Circuit.verdict, Circuit.operandValue, Circuit.operandValue,
    hl, hr]
  cases hk : g.kind n with
  | gt | lt => simp [NodeKind.holds]
  | eq => simp
  | _ => exact absurd hcmp (by rw [hk]; decide)

/-- So does the scalar code. -/
theorem read_eq_taken (h : Evaluated mode g root n) (hw : g.WellTyped root) (lane : ℕ) :
    g.read root row n = if g.takenTruth .scalar root lane row n then 1 else 0 := by
  obtain ⟨l, r, hl, hr, -, -⟩ := h.operands hw
  have hcmp := h.isComparison
  rw [read_of_hasCode (NodeKind.of_isComparison hcmp).1, Graph.readStep, Graph.takenTruth,
    Graph.takenOperand, Graph.takenOperand, hl, hr]
  cases hk : g.kind n with
  | gt | lt | eq =>
    simp only [NodeKind.holds, Graph.taken, Option.map_some, Option.getD_some, true_or,
      decide_true, Bool.and_true]
    exact (if_congr decide_eq_true_iff rfl rfl).symm
  | _ => exact absurd hcmp (by rw [hk]; decide)

end Taken

/-! ## What a kernel decides -/

section Decisions

variable {mode : ExecutionMode} {g : Graph} {root n : NodeRef} {rows : ℕ → Graph.Row}
  {x2 x3 x5 : Word} {r : ℕ}

/-- The register of a comparison in a well-typed expression. -/
theorem decision_of_wellTyped (hw : g.WellTyped root) (hn : n ∈ Circuit.compared g root)
    (hr : r < 64) :
    decision .bitSliced g rows root x2 x3 x5 n r =
      Circuit.verdict g (g.slicedLeaf (rows r)) r n :=
  decision_of_values (values_of_wellTyped hw) (fun _ hc hca => mem_adderNodes.mpr ⟨hc.1, hca⟩)
    (fun _ hn => comparable_of_wellTyped hw hn) (fun _ hc hca _ hb => rowInputs_lane hc.2 hca hr hb)
    hn hr

/-- **Every comparison is decided on what is taken for its operands.** -/
theorem decision_eq_taken (h : Evaluated mode g root n) (hw : g.WellTyped root) (hr : r < 64) :
    decision mode g rows root x2 x3 x5 n r = g.takenTruth mode root r (rows r) n := by
  cases mode with
  | bitSliced => rw [decision_of_wellTyped hw (h.register rfl) hr, verdict_eq_taken h hw]
  | scalar =>
    simp only [decision]
    rw [cell_eq_read hw h.mem_listing, read_eq_taken h hw r]
    cases g.takenTruth .scalar root r (rows r) n <;> rfl

/-- A comparison at the root is the mask. -/
theorem mask_eq_decision (hw : g.WellTyped root) (hk : (g.kind root).isComparison = true)
    (hr : r < 64) :
    (kernelMask g rows mode root x2 x3 x5).getLsbD r =
      decision mode g rows root x2 x3 x5 root r := by
  have hcompared := compared_of_isComparison hk
  have h : Evaluated mode g root root :=
    ⟨hk, g.root_mem_listing root, fun _ => by rw [hcompared]; exact List.mem_singleton.mpr rfl⟩
  rw [decision_eq_taken h hw hr]
  cases mode with
  | bitSliced =>
    rw [kernelMask_getLsbD hw _ _ _ _ hr, laneVerdict, Graph.slicedTruth, hcompared, List.all_cons,
      List.all_nil, Bool.and_true, verdict_eq_taken h hw]
  | scalar =>
    refine scalarMask_of_cell (b := fun row => g.takenTruth .scalar root r row root)
      (fun row s => ?_) hr
    rw [cell_eq_read hw h.mem_listing, read_eq_taken h hw r]

/-- In bit-sliced mode the mask is the conjunction of what is decided. -/
theorem mask_eq_all_decisions (hw : g.WellTyped root) (hr : r < 64) :
    (kernelMask g rows .bitSliced root x2 x3 x5).getLsbD r = (Circuit.compared g root).all
      fun n => decision .bitSliced g rows root x2 x3 x5 n r := by
  rw [kernelMask_getLsbD hw _ _ _ _ hr, laneVerdict, Graph.slicedTruth, Bool.eq_iff_iff,
    List.all_eq_true, List.all_eq_true]
  exact forall₂_congr fun n hn => by rw [decision_of_wellTyped hw hn hr]

end Decisions

/-! ## Where shifts are evaluated -/

section Calls

variable {mode : ExecutionMode} {g : Graph} {root : NodeRef}

/-- **Where comparisons of shifts are right**: a kernel returns a mask made of decisions, and a
listed comparison is evaluated as it should in a row exactly when it is evaluated and comes to
the same on what is taken for its operands. -/
theorem shifts_iff (k : CompiledKernel mode g root) (hw : g.WellTyped root)
    (rows : ℕ → Graph.Row) :
    ∃ m decided, k.Returns rows m ∧
      decided = decision mode g rows root (k.caller.regs .x2) (k.caller.regs .x3)
        (k.caller.regs .x5) ∧
      (mode = .bitSliced → ∀ r < 64, m.getLsbD r =
        (Circuit.compared g root).all fun n => decided n r) ∧
      ((g.kind root).isComparison = true → ∀ r < 64, m.getLsbD r = decided root r) ∧
      (mode = .scalar → FollowMasks g (g.listing root) → ∀ r < 64,
        m.getLsbD r = g.connect root (fun n => decided n r) root) ∧
      ∀ n ∈ g.listing root, (g.kind n).isComparison = true → ∀ r < 64,
        (Evaluated mode g root n ∧ decided n r = g.truth (rows r) n ↔
          Evaluated mode g root n ∧ g.takenTruth mode root r (rows r) n =
            (g.kind n).holds (g.operandValue (rows r) (g.node n).left)
              (g.operandValue (rows r) (g.node n).right)) := by
  refine ⟨_, _, k.returns_mask rows, rfl, fun hmode r hr => ?_, fun hk r hr => ?_,
    fun hmode hfollow r hr => ?_, fun n _ hk r hr => and_congr_right fun h => ?_⟩
  · subst hmode
    exact mask_eq_all_decisions hw hr
  · exact mask_eq_decision hw hk hr
  · subst hmode
    exact scalarMask_eq_connect hw hfollow hr
  · rw [decision_eq_taken h hw hr, truth_of_isComparison hk]

end Calls

/-! ## A doubled field -/

/-- The nodes of `GT(LSL(a, 1), 5)`. -/
def doubledNode : ℕ → Node
  | 0 => { kind := .load, fieldName := [97] }
  | 1 => { kind := .lsl, left := some 0, shiftAmount := 1 }
  | 2 => { kind := .const, constValue := 5 }
  | 3 => { kind := .gt, left := some 1, right := some 2 }
  | _ => { kind := .load }

/-- The graph of these nodes.  The root is node 3. -/
def doubledGraph : Graph where
  node := doubledNode
  rank := id
  rank_lt i c hc := by
    unfold doubledNode at hc
    split at hc <;> simp [Node.children] at hc
    · rw [hc]
      decide
    · rcases hc with rfl | rfl <;> decide

/-- There are kernels of it in either mode. -/
theorem nonempty_doubled (mode : ExecutionMode) : Nonempty (CompiledKernel mode doubledGraph 3) := by
  cases mode with
  | bitSliced => exact CompiledKernel.nonempty_bitSliced [5] (by decide) rfl (by decide)
  | scalar => exact CompiledKernel.nonempty_scalar fun _ => ⟨by decide, by decide⟩

/-- The scalar kernel on rows with `a = 7`: both 7 and 14 are above 5. -/
theorem shifts_iff_doubled : ∃ (k : CompiledKernel .scalar doubledGraph 3) (m : Word),
    k.Returns (fun _ _ => 7) m ∧ ∀ r < 64, m.getLsbD r = true := by
  obtain ⟨k⟩ := nonempty_doubled .scalar
  obtain ⟨m, decided, hm, -, -, hroot, -, hdecided⟩ := shifts_iff k (by decide) fun _ _ => 7
  have hevaluated : Evaluated .scalar doubledGraph 3 3 := ⟨rfl, by decide, by decide⟩
  refine ⟨k, m, hm, fun r hr => ?_⟩
  rw [hroot rfl r hr, ((hdecided 3 hevaluated.mem_listing rfl r hr).mpr ⟨hevaluated, rfl⟩).2]
  rfl

/-- The law of shifts, for comparisons at the root. -/
def ShiftLaw (mode : ExecutionMode) : Prop :=
  ∀ (g : Graph) (root : NodeRef) (k : CompiledKernel mode g root) (rows : ℕ → Graph.Row),
    g.WellTyped root → (g.kind root).isComparison = true →
    (∀ n ∈ g.listing root, (g.kind n).isShift = true →
      0 ≤ (g.node n).shiftAmount ∧ (g.node n).shiftAmount < 64) → k.TellsTruth rows

/-- **A shift that does not shift**: on rows with `a = 3` the doubled field is above 5, and
neither kernel of `GT(LSL(a, 1), 5)` says so. -/
theorem shifts_doubled : ¬ ShiftLaw .bitSliced ∧ ¬ ShiftLaw .scalar := by
  have hw : doubledGraph.WellTyped 3 := by decide
  have hfails : ∀ mode, doubledGraph.takenTruth mode 3 0 (fun _ => 3) 3 = false →
      ¬ ShiftLaw mode := by
    intro mode htaken h
    obtain ⟨k⟩ := nonempty_doubled mode
    have hlane := (k.tellsTruth_iff _).mp
      (h doubledGraph 3 k (fun _ _ => 3) hw rfl (by decide)) 0 (by omega)
    have hevaluated : Evaluated mode doubledGraph 3 3 := ⟨rfl, by decide, fun _ => by decide⟩
    rw [CompiledKernel.mask, mask_eq_decision hw rfl (by omega),
      decision_eq_taken hevaluated hw (by omega), htaken] at hlane
    exact absurd hlane (by decide)
  exact ⟨hfails .bitSliced rfl, hfails .scalar rfl⟩

end Jit
end ApexEngine
