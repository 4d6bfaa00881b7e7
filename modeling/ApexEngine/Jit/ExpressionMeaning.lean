import ApexEngine.Jit.ExpressionCall
import ApexEngine.Jit.Threshold

/-!
# What a bit-sliced kernel decides

On a well-typed expression the kernel decides each row by itself, and
`Graph.slicedTruth` is what it decides: the conjunction of the first three
comparisons that are found through conjunctions.  It is not always the truth of the
expression.  An equality has registers and no code, so it is never found to hold; a
fourth comparison, a disjunction, a negation or a selection has no effect; a shift
reads a slot that nothing writes; and a subtraction borrows one in every lane but
the first, because the carry it starts from is a one in the first lane only.

On what is left, conjunctions of at most three comparisons of sums, it is the truth
(`slicedTruth_eq_truth`), and the kernel is correct there for every input, caller and
content of the scratchpad (`compileExpression_correct`).
-/

namespace ApexEngine
namespace Jit

open A64 (Word)
open BitPlane (Shows)

namespace Graph

variable (g : Graph) (row : Row)

/-- The values the circuit starts from.  Nothing is written to the slot of a shift. -/
def slicedLeaf (n : NodeRef) : Word :=
  match g.kind n with
  | .load => row (g.node n).fieldName
  | .const => (g.node n).constValue
  | _ => 0

/-- What a bit-sliced kernel decides about a row in a lane. -/
def slicedTruth (lane : ℕ) (root : NodeRef) : Bool :=
  (Circuit.compared g root).all (Circuit.verdict g (g.slicedLeaf row) lane)

end Graph

section Lanes

variable {caller : Caller} {planes : Planes} {scratch : Scratch} {g : Graph} {root : NodeRef}
  {ms : NodeMetas} {konst : NodeRef → Word} {rows : ℕ → Graph.Row}

/-- The slots of shifts are zero. -/
def ShiftsZero (g : Graph) (root : NodeRef) (ms : NodeMetas) (scratch : Scratch) : Prop :=
  ∀ n ∈ g.arithmeticNodes root, (g.kind n).isAdder = false →
    ∀ b < 64, scratch (slotCell ms n b) = 0

/-- The nodes of an expression that are values. -/
def IsValue (g : Graph) (root n : NodeRef) : Prop :=
  n ∈ g.listing root ∧ (g.kind n).resultKind = .bitplane

theorem values_of_wellTyped (hw : g.WellTyped root) : Circuit.Values g (IsValue g root) where
  resultKind _ hn := hn.2
  operands n hn hadd := by
    have hl : (g.kind n).leftKind = some .bitplane := by
      rcases NodeKind.isAdder_iff.mp hadd with hk | hk <;> rw [hk] <;> rfl
    have hr : (g.kind n).rightKind = some .bitplane := by
      rcases NodeKind.isAdder_iff.mp hadd with hk | hk <;> rw [hk] <;> rfl
    obtain ⟨l, hleft, hlmem, hlk⟩ := hw.left hn.1 hl
    obtain ⟨r, hright, hrmem, hrk⟩ := hw.right hn.1 hr
    exact ⟨l, r, hleft, hright, ⟨hlmem, hlk⟩, hrmem, hrk⟩

theorem comparable_of_wellTyped (hw : g.WellTyped root) {n : NodeRef}
    (hn : n ∈ Circuit.compared g root) : Circuit.Comparable g (IsValue g root) n := by
  intro hk
  have hmem := (g.mem_listing root).mpr (mem_collectComparisons (List.mem_of_mem_take hn)).1
  have hl : (g.kind n).leftKind = some .bitplane := by
    rcases hk with hk | hk <;> rw [hk] <;> rfl
  have hr : (g.kind n).rightKind = some .bitplane := by
    rcases hk with hk | hk <;> rw [hk] <;> rfl
  obtain ⟨l, hleft, hlmem, hlk⟩ := hw.left hmem hl
  obtain ⟨r, hright, hrmem, hrk⟩ := hw.right hmem hr
  exact ⟨l, r, hleft, hright, ⟨hlmem, hlk⟩, hrmem, hrk⟩

/-- The planes the leaves are connected to show the rows. -/
theorem inputs_lane (hp : Presents .bitSliced g root ms planes rows) (hz : ShiftsZero g root ms scratch)
    {n : NodeRef} (hn : IsValue g root n) (hadd : (g.kind n).isAdder = false) {r b : ℕ}
    (hr : r < 64) (hb : b < 64) :
    (inputs g ms planes scratch n b).getLsbD r = (g.slicedLeaf (rows r) n).getLsbD b := by
  unfold inputs Graph.slicedLeaf
  have hshift : (g.kind n).isArithmetic = true → scratch (slotCell ms n b) = 0 :=
    fun hk => hz n ((g.mem_arithmeticNodes root).mpr ⟨hn.1, hk⟩) hadd b hb
  cases hk : g.kind n with
  | load =>
    obtain ⟨p, hplane, hshow⟩ := hp n ((g.mem_loadNodes root).mpr ⟨hn.1, hk⟩)
    simp only [hplane, Option.map_some, Option.getD_some]
    exact hshow r hr b hb
  | const => exact BitPlane.shows_broadcast _ hr b hb
  | lsl | lsr => simp [hshift (by rw [hk]; rfl)]
  | add | sub => exact absurd hadd (by rw [hk]; decide)
  | _ => exact absurd hn.2 (by rw [hk]; decide)

/-- **The mask of a well-typed expression, lane by lane**: it is decided by what the leaves
show there. -/
theorem mask_lane (hw : g.WellTyped root) {inp : NodeRef → ℕ → Word} {row : Graph.Row} {r : ℕ}
    (hr : r < 64)
    (hinp : ∀ n, IsValue g root n → (g.kind n).isAdder = false → ∀ b < 64,
      (inp n b).getLsbD r = (g.slicedLeaf row n).getLsbD b) (a b : Word) :
    (Circuit.mask g inp root a b).getLsbD r = g.slicedTruth row r root :=
  Circuit.mask_getLsbD hr (values_of_wellTyped hw)
    (fun _ _ _ h => ⟨(adderNodes_split h).1, fun c hc => ((adderNodes_split h).2 c hc).2⟩)
    (fun _ hn hadd => mem_adderNodes.mpr ⟨hn.1, hadd⟩)
    (fun _ hn => comparable_of_wellTyped hw hn)
    (fun c hc hca b hb => hinp c hc hca b hb) a b

/-- **A call of the kernel of a well-typed expression** on planes that show 64 rows.  It
leaves the cells alone that belong to no sum. -/
theorem callExpr_lanes (hw : g.WellTyped root) (hcall : Callable caller planes g root ms konst)
    (hp : Presents .bitSliced g root ms planes rows) (hz : ShiftsZero g root ms scratch) :
    ∃ m S, caller.callExpr (g.expressionCode root ms konst) planes scratch = some (m, S) ∧
      (∀ r < 64, m.getLsbD r = g.slicedTruth (rows r) r root) ∧
      ∀ j < 512, (∀ n ∈ g.adderNodes root, ∀ b < 64, j ≠ slotCell ms n b) → S j = scratch j := by
  obtain ⟨S, hrun, hS⟩ := callExpr_expressionCode scratch hcall
  exact ⟨_, S, hrun, fun r hr => mask_lane hw hr
    (fun _ hn hadd _ hb => inputs_lane hp hz hn hadd hr hb) _ _, hS⟩

/-- What a successful compilation has allocated. -/
theorem allocated_of_compile {heap : ℕ → Word} {st st' : CompileState} {code : List A64.Item}
    (h : compileExpression heap g (some root) st = (some code, st')) :
    ∃ konst, code = g.expressionCode root st'.metas konst ∧
      Allocated g root st'.metas konst st'.pool := by
  obtain ⟨hfields, harith⟩ := limits_of_compileExpression heap g root st h
  obtain ⟨konst, pool, hcompile, halloc⟩ := compileExpression_ok heap g root st hfields harith
  rw [h] at hcompile
  obtain ⟨hcode, hst⟩ := Prod.mk.inj hcompile
  subst hst
  exact ⟨konst, Option.some.inj hcode, halloc⟩

/-- What a successful compilation gives to call. -/
theorem callable_of_compile {heap : ℕ → Word} {st st' : CompileState} {code : List A64.Item}
    (h : compileExpression heap g (some root) st = (some code, st'))
    (hpool : st'.pool ⊆ caller.pool)
    (hbound : ∀ n ∈ g.loadNodes root, (planes (st'.metas n).fieldIdx.toNat).isSome) :
    ∃ konst, code = g.expressionCode root st'.metas konst ∧
      Callable caller planes g root st'.metas konst := by
  obtain ⟨hfields, harith⟩ := limits_of_compileExpression heap g root st h
  obtain ⟨konst, hcode, halloc⟩ := allocated_of_compile h
  refine ⟨konst, hcode, halloc.mono hpool, hfields, harith, fun i hi => ?_⟩
  obtain ⟨n, hn, hidx⟩ := exists_load_of_lt hi
  have hb := hbound n hn
  obtain ⟨hmem, hk⟩ := (g.mem_loadNodes root).mp hn
  have hfield := halloc.fieldIdx n hmem hk
  rwa [hfield, Int.toNat_natCast, hidx] at hb

end Lanes

/-! ## Where it is the truth -/

section Truth

variable {g : Graph} {root : NodeRef} {row : Graph.Row} {lane : ℕ}

/-- The kinds of conjunctions of comparisons of sums. -/
def conjunctiveKinds : List NodeKind := [.load, .const, .add, .gt, .lt, .and]

/-- Sums have the same value in every lane. -/
theorem laneValue_eq_value (hw : g.WellTyped root) (hover : g.Over root conjunctiveKinds)
    {n : NodeRef} (hn : IsValue g root n) :
    Circuit.laneValue g (g.slicedLeaf row) lane n = g.value row n := by
  induction n using g.induction with
  | h n ih =>
    by_cases hadd : (g.kind n).isAdder = true
    · obtain ⟨l, r, hl, hr, hgl, hgr⟩ := (values_of_wellTyped hw).operands n hn hadd
      have hk : g.kind n = .add := (NodeKind.isAdder_iff.mp hadd).resolve_right fun hsub =>
        absurd (hover n hn.1) (by rw [hsub]; decide)
      have ihl := ih l (Node.mem_children.mpr (Or.inl hl)) hgl
      have ihr := ih r (Node.mem_children.mpr (Or.inr (Or.inl hr))) hgr
      rw [Circuit.laneValue, g.fold_eq, Circuit.laneStep, g.value_eq, Graph.valueStep, hk, hl, hr]
      simp only [Option.map_some, Option.getD_some]
      rw [← ihl, ← ihr]
      rfl
    · rw [Circuit.laneValue_of_not_adder (by simpa using hadd), Graph.slicedLeaf, g.value_eq,
        Graph.valueStep]
      have := hover n hn.1
      cases hk : g.kind n <;> simp_all [conjunctiveKinds, NodeKind.isAdder, IsValue,
        NodeKind.resultKind]

/-- A comparison of sums is decided as it should. -/
theorem verdict_eq_truth (hw : g.WellTyped root) (hover : g.Over root conjunctiveKinds)
    {n : NodeRef} (hn : n ∈ g.listing root) (hk : g.kind n = .gt ∨ g.kind n = .lt) :
    Circuit.verdict g (g.slicedLeaf row) lane n = g.truth row n := by
  have hl : (g.kind n).leftKind = some .bitplane := by rcases hk with hk | hk <;> rw [hk] <;> rfl
  have hr : (g.kind n).rightKind = some .bitplane := by rcases hk with hk | hk <;> rw [hk] <;> rfl
  obtain ⟨l, hleft, hlmem, hlk⟩ := hw.left hn hl
  obtain ⟨r, hright, hrmem, hrk⟩ := hw.right hn hr
  have hlv := @laneValue_eq_value g root row lane hw hover l ⟨hlmem, hlk⟩
  have hrv := @laneValue_eq_value g root row lane hw hover r ⟨hrmem, hrk⟩
  rw [Circuit.verdict, g.truth_eq, Graph.truthStep]
  rcases hk with hk | hk <;>
    simp only [hk, hleft, hright, Circuit.operandValue, Graph.operandValue, Option.map_some,
      Option.getD_some, hlv, hrv]

/-- A conjunction is the conjunction of the comparisons found in it. -/
theorem all_collectComparisons (hw : g.WellTyped root) (hover : g.Over root conjunctiveKinds)
    {n : NodeRef} (hn : n ∈ g.listing root) (hmask : (g.kind n).resultKind = .bitmask) :
    (collectComparisons g n).all (g.truth row) = g.truth row n := by
  induction n using g.induction with
  | h n ih =>
    have hkinds := hover n hn
    rw [collectComparisons, g.fold_eq]
    cases hk : g.kind n with
    | gt | lt => simp
    | and =>
      obtain ⟨l, hleft, hlmem, hlk⟩ := hw.left hn (by rw [hk]; rfl)
      obtain ⟨r, hright, hrmem, hrk⟩ := hw.right hn (by rw [hk]; rfl)
      have ihl := ih l (Node.mem_children.mpr (Or.inl hleft)) hlmem hlk
      have ihr := ih r (Node.mem_children.mpr (Or.inr (Or.inl hright))) hrmem hrk
      rw [hleft, hright, g.truth_eq, Graph.truthStep, hk, hleft, hright]
      simp only [Option.map_some, Option.getD_some, List.all_append]
      rw [← ihl, ← ihr]
      rfl
    | load | const | add => exact absurd hmask (by rw [hk]; decide)
    | _ => exact absurd hkinds (by rw [hk]; decide)

/-- **Conjunctions of at most three comparisons of sums are decided as they should.** -/
theorem slicedTruth_eq_truth (hw : g.WellTyped root) (hover : g.Over root conjunctiveKinds)
    (hcount : (collectComparisons g root).length ≤ 3) :
    g.slicedTruth row lane root = g.truth row root := by
  rw [Graph.slicedTruth, Circuit.compared, List.take_of_length_le hcount,
    ← all_collectComparisons hw hover (g.root_mem_listing root) hw.mask, Bool.eq_iff_iff]
  simp only [List.all_eq_true]
  refine forall₂_congr fun n hn => ?_
  obtain ⟨hreach, hk⟩ := mem_collectComparisons hn
  have hmem := (g.mem_listing root).mpr hreach
  have hkinds := hover n hmem
  rw [verdict_eq_truth hw hover hmem]
  rcases hk with hk | hk | hk
  · exact Or.inl hk
  · exact Or.inr hk
  · exact absurd hkinds (by rw [hk]; decide)

end Truth

/-- **The bit-sliced compiler is correct** on conjunctions of at most three
comparisons of sums: whatever the rows, the content of the scratchpad and the caller,
bit `r` of the mask tells whether the condition holds on row `r`. -/
theorem compileExpression_correct {heap : ℕ → Word} {g : Graph} {root : NodeRef}
    {st st' : CompileState} {code : List A64.Item}
    (hcompile : compileExpression heap g (some root) st = (some code, st'))
    (hw : g.WellTyped root) (hover : g.Over root conjunctiveKinds)
    (hcount : (collectComparisons g root).length ≤ 3) {caller : Caller}
    (hpool : st'.pool ⊆ caller.pool) {planes : Planes} {rows : ℕ → Graph.Row}
    (hp : Presents .bitSliced g root st'.metas planes rows) (scratch : Scratch) :
    ∃ m S, caller.callExpr code planes scratch = some (m, S) ∧
      ∀ r < 64, m.getLsbD r = g.truth (rows r) root := by
  obtain ⟨konst, rfl, hcall⟩ := callable_of_compile hcompile hpool hp.isSome
  have hz : ShiftsZero g root st'.metas scratch := by
    intro n hn hadd
    obtain ⟨hmem, hk⟩ := (g.mem_arithmeticNodes root).mp hn
    have := hover n hmem
    cases hkind : g.kind n <;> simp_all [conjunctiveKinds, NodeKind.isAdder, NodeKind.isArithmetic]
  obtain ⟨m, S, hrun, hm, -⟩ := callExpr_lanes hw hcall hp hz
  refine ⟨m, S, hrun, fun r hr => ?_⟩
  rw [hm r hr, slicedTruth_eq_truth hw hover hcount]

/-- The kernel of `GT(Load("a"), Const(5))` on 64 rows with `a = 7`. -/
theorem compileExpression_correct_threshold :
    ∃ code st' m S, compileExpression standardHeap (thresholdGraph (.ofString [97]) 5) (some 2)
        ⟨fun _ => {}, []⟩ = (some code, st') ∧
      (Caller.standard [5] (by decide)).callExpr code
        (fun i => if i = 0 then some (BitPlane.broadcast (7 : Word)) else none) (fun _ => 0) =
          some (m, S) ∧
      ∀ r < 64, m.getLsbD r = true := by
  obtain ⟨code, st', hcompile⟩ : ∃ code st', compileExpression standardHeap
      (thresholdGraph (.ofString [97]) 5) (some 2) ⟨fun _ => {}, []⟩ = (some code, st') :=
    ⟨_, _, rfl⟩
  have hst : st' = (compileExpression standardHeap (thresholdGraph (.ofString [97]) 5) (some 2)
      ⟨fun _ => {}, []⟩).2 := by rw [hcompile]
  subst hst
  generalize hst : (compileExpression standardHeap (thresholdGraph (.ofString [97]) 5) (some 2)
    ⟨fun _ => {}, []⟩).2 = st' at hcompile
  have hpool : st'.pool ⊆ (Caller.standard [5] (by decide)).pool := by
    rw [← hst]
    exact List.Subset.refl [(5, standardHeap 0)]
  have hp : Presents .bitSliced (thresholdGraph (.ofString [97]) 5) 2 st'.metas
      (fun i => if i = 0 then some (BitPlane.broadcast (7 : Word)) else none) fun _ _ => 7 := by
    intro n hn
    rw [loadNodes_threshold] at hn
    rw [List.mem_singleton.mp hn, ← hst]
    exact ⟨_, rfl, fun r hr => BitPlane.shows_broadcast _ hr⟩
  obtain ⟨m, S, hrun, hm⟩ := compileExpression_correct hcompile (wellTyped_threshold _ _)
    (over_threshold _ _ (by decide)) (by decide) hpool hp fun _ => 0
  exact ⟨code, _, m, S, hcompile, hrun, fun r hr => (hm r hr).trans (truth_threshold _ _ _)⟩

end Jit
end ApexEngine
