import ApexEngine.Jit.StandIns
import ApexEngine.Jit.Sums

/-!
# The order of signed numbers

Fields may be declared `INT64` and the constants of the builder are `int64_t`, and the
reference that the examples compare the engine with subtracts and compares signed
numbers.  Neither code generator knows a signed order: one compares the planes from the
top bit down, the other branches on the unsigned conditions, and no type reaches them.

What a kernel decides about a comparison is therefore the order of the two sides as
unsigned numbers, after what the bit-sliced sums miss (`decision_eq`).  It is the signed
order exactly when these two orders agree on the sides in question (`signedOrder_iff`).
Where nothing is missed, which is always so in scalar mode, that is when both sides are
negative or neither is (`orderKept_iff_signs`).

The mask is made of the decisions: a bit-sliced one is the conjunction of those that have
code, a scalar one is what the connectives make of them (`MadeOf`, `scalarMask_eq_connect`).
-/

namespace ApexEngine
namespace Jit

open A64 (Word)
open Scalar (RowState)

/-- The numbers of an `int64_t`. -/
def InInt64 (x : ℤ) : Prop := -2 ^ 63 ≤ x ∧ x < 2 ^ 63

instance (x : ℤ) : Decidable (InInt64 x) := by
  unfold InInt64
  infer_instance

namespace Graph

variable (g : Graph) (row : Row)

/-- The exact value of a node: fields and constants are signed numbers, and nothing wraps
around. -/
def exactStep (n : NodeRef) (left right _cond : Option ℤ) : ℤ :=
  match g.kind n with
  | .load => (row (g.node n).fieldName).toInt
  | .const => (g.node n).constValue.toInt
  | .add => left.getD 0 + right.getD 0
  | .sub => left.getD 0 - right.getD 0
  | _ => 0

/-- The exact value of a node on a row. -/
def exact : NodeRef → ℤ := g.fold (g.exactStep row)

theorem exact_eq (n : NodeRef) :
    g.exact row n = g.exactStep row n ((g.node n).left.map (g.exact row))
      ((g.node n).right.map (g.exact row)) ((g.node n).cond.map (g.exact row)) :=
  g.fold_eq _ n

/-- Every comparison of an expression compares sums of fields and constants. -/
def ComparesSums (root : NodeRef) : Prop :=
  ∀ n ∈ g.listing root, g.kind n = .gt ∨ g.kind n = .lt → ∃ lesser greater,
    g.Compares n lesser greater

/-- What a kernel of the mode misses from a node in a lane. -/
def lag (mode : ExecutionMode) (lane : ℕ) (n : NodeRef) : ℤ :=
  match mode with
  | .bitSliced => g.laneBorrows lane n
  | .scalar => 0

/-- The unsigned order of two nodes, less what is missed, is the order of their exact values. -/
def OrderKept (mode : ExecutionMode) (lane : ℕ) (lesser greater : NodeRef) : Prop :=
  (g.exact row lesser - g.lag mode lane lesser) % 2 ^ 64 <
      (g.exact row greater - g.lag mode lane greater) % 2 ^ 64 ↔
    g.exact row lesser < g.exact row greater

end Graph

/-! ## Words and exact values -/

section Words

variable {g : Graph} {row : Graph.Row} {root n lesser greater : NodeRef}

/-- A sum is its exact value modulo `2 ^ 64`. -/
theorem value_eq_ofInt (h : g.IsSum n) : g.value row n = BitVec.ofInt 64 (g.exact row n) := by
  induction h with
  | load hk | const hk =>
    rw [g.value_eq, g.exact_eq, Graph.valueStep, Graph.exactStep, hk, BitVec.ofInt_toInt]
  | @adder n left right hadd hl hr _ _ ihl ihr =>
    have hexact := g.exact_eq row n
    rw [Graph.exactStep, hl, hr] at hexact
    cases hk : g.kind n with
    | add =>
      rw [hk] at hexact
      rw [value_of_add hk hl hr, ihl, ihr, ← BitVec.ofInt_add]
      exact congrArg (BitVec.ofInt 64) hexact.symm
    | sub =>
      rw [hk] at hexact
      rw [value_of_sub hk hl hr, ihl, ihr, ← ofInt_sub]
      exact congrArg (BitVec.ofInt 64) hexact.symm
    | _ => exact absurd hadd (by rw [hk]; decide)

theorem ofInt_lt_ofInt_iff (x y : ℤ) :
    BitVec.ofInt 64 x < BitVec.ofInt 64 y ↔ x % 2 ^ 64 < y % 2 ^ 64 := by
  rw [BitVec.lt_def, BitVec.toNat_ofInt, BitVec.toNat_ofInt]
  omega

/-- Numbers of one sign keep their order as unsigned numbers, numbers of different signs
exchange it. -/
theorem emod_lt_emod_iff {x y : ℤ} (hx : InInt64 x) (hy : InInt64 y) :
    (x % 2 ^ 64 < y % 2 ^ 64 ↔ x < y) ↔ (x < 0 ↔ y < 0) := by
  obtain ⟨hx₁, hx₂⟩ := hx
  obtain ⟨hy₁, hy₂⟩ := hy
  omega

/-- **Where nothing is missed**, the order is kept when both sides are negative or neither is. -/
theorem orderKept_iff_signs {mode : ExecutionMode} {lane : ℕ}
    (hl : g.lag mode lane lesser = 0) (hg : g.lag mode lane greater = 0)
    (hfitl : InInt64 (g.exact row lesser)) (hfitg : InInt64 (g.exact row greater)) :
    g.OrderKept row mode lane lesser greater ↔
      (g.exact row lesser < 0 ↔ g.exact row greater < 0) := by
  rw [Graph.OrderKept, hl, hg, sub_zero, sub_zero]
  exact emod_lt_emod_iff hfitl hfitg

/-- What the operands of a comparison have in a lane of the circuit. -/
theorem verdict_of_compares (h : g.Compares n lesser greater) (lane : ℕ) :
    Circuit.verdict g (g.slicedLeaf row) lane n =
      decide ((g.exact row lesser - g.lag .bitSliced lane lesser) % 2 ^ 64 <
        (g.exact row greater - g.lag .bitSliced lane greater) % 2 ^ 64) := by
  have hword : ∀ c, g.IsSum c → Circuit.laneValue g (g.slicedLeaf row) lane c =
      BitVec.ofInt 64 (g.exact row c - g.lag .bitSliced lane c) := fun c hc => by
    rw [laneValue_eq_value_sub hc, value_eq_ofInt hc, ← ofInt_sub]
    rfl
  simp only [← ofInt_lt_ofInt_iff, ← hword _ h.lesser, ← hword _ h.greater]
  rcases h.operands with ⟨hk, hl, hr⟩ | ⟨hk, hl, hr⟩ <;>
    simp only [Circuit.verdict, Circuit.operandValue, hk, hl, hr, Option.map_some, Option.getD_some]

end Words

/-! ## What a kernel decides -/

/-- What a kernel has decided about a comparison on a row: a bit of the comparison's register
after the second loop, or the last bit of its cell at the end of the row. -/
def decision (mode : ExecutionMode) (g : Graph) (rows : ℕ → Graph.Row) (root : NodeRef)
    (x2 x3 x5 : Word) (n : NodeRef) (r : ℕ) : Bool :=
  match mode with
  | .bitSliced =>
      ((Circuit.comparedAll g (rowInputs g rows) root x2 x3).cmp
        ((Circuit.compared g root).idxOf n)).gt.getLsbD r
  | .scalar =>
      ((Scalar.evalRow g (g.rowLeaf (rows r)) root
        (Scalar.evalRows g root (fun k => g.rowLeaf (rows k)) ⟨x2, x3, x5, fun _ => 0⟩ r).1).cell
          n).getLsbD 0

/-- A comparison that has code: in bit-sliced mode one of those with registers. -/
def HasCode (mode : ExecutionMode) (g : Graph) (root n : NodeRef) : Prop :=
  (g.kind n = .gt ∨ g.kind n = .lt) ∧
    match mode with
    | .bitSliced => n ∈ Circuit.compared g root
    | .scalar => n ∈ g.listing root

section Decisions

variable {mode : ExecutionMode} {g : Graph} {rows : ℕ → Graph.Row} {row : Graph.Row}
  {root n lesser greater : NodeRef} {x2 x3 x5 : Word} {r : ℕ}

theorem HasCode.mem_listing (h : HasCode mode g root n) : n ∈ g.listing root := by
  cases mode with
  | bitSliced => exact (g.mem_listing root).mpr (mem_collectComparisons (List.mem_of_mem_take h.2)).1
  | scalar => exact h.2

/-- The operands of the comparisons with registers are sums. -/
theorem comparable_of_comparesSums (hsums : g.ComparesSums root) :
    ∀ n ∈ Circuit.compared g root, Circuit.Comparable g (g.SumIn root) n := by
  intro n hn hk
  have hmem := (g.mem_listing root).mpr (mem_collectComparisons (List.mem_of_mem_take hn)).1
  obtain ⟨lesser, greater, h⟩ := hsums n hmem hk
  exact h.comparable hmem hk

/-- The register of a comparison after the second loop, over values of the circuit. -/
theorem decision_of_values {good : NodeRef → Prop} (hvals : Circuit.Values g good)
    (hlisted : ∀ n, good n → (g.kind n).isAdder = true → n ∈ g.adderNodes root)
    (hcmp : ∀ n ∈ Circuit.compared g root, Circuit.Comparable g good n)
    (hinp : ∀ c, good c → (g.kind c).isAdder = false → ∀ b < 64,
      (rowInputs g rows c b).getLsbD r = (g.slicedLeaf (rows r) c).getLsbD b)
    (hn : n ∈ Circuit.compared g root) (hr : r < 64) :
    decision .bitSliced g rows root x2 x3 x5 n r =
      Circuit.verdict g (g.slicedLeaf (rows r)) r n := by
  have hidx : (n, (Circuit.compared g root).idxOf n) ∈ (Circuit.compared g root).zipIdx := by
    rw [List.mk_mem_zipIdx_iff_getElem?, List.getElem?_idxOf hn]
  have hdecided := Circuit.phase2_decided (s := ⟨(Circuit.added g (rowInputs g rows) root x2 x3).a,
      (Circuit.added g (rowInputs g rows) root x2 x3).b, fun _ => .start⟩) hvals hr le_rfl hcmp hinp
    (fun c hc hca => Circuit.table_shows hvals hr (ordered_adderNodes g root)
      (fun n hn => (mem_adders.mp hn).2) hinp x2 x3 (hlisted c hc hca) hc)
    (fun p _ => Circuit.Decided.start hr p.1) _ hidx
  exact hdecided.gt_eq

/-- The register of a comparison of sums. -/
theorem decision_bitSliced (hsums : g.ComparesSums root) (hn : n ∈ Circuit.compared g root)
    (hr : r < 64) :
    decision .bitSliced g rows root x2 x3 x5 n r =
      Circuit.verdict g (g.slicedLeaf (rows r)) r n :=
  decision_of_values (values_sumIn g root) (fun _ hc hca => mem_adderNodes.mpr ⟨hc.1, hca⟩)
    (comparable_of_comparesSums hsums) (rowInputs_sumIn g root rows hr) hn hr

/-- What a row's cells have: sums their values, comparisons of sums a truth value. -/
def CellRight (g : Graph) (row : Graph.Row) (n : NodeRef) (w : Word) : Prop :=
  (g.IsSum n → w = g.value row n) ∧ ∀ lesser greater, g.Compares n lesser greater →
    w = if g.value row lesser < g.value row greater then 1 else 0

/-- An operand that is a sum is fetched with its value. -/
theorem fetch_of_isSum {p q : List NodeRef} {cell : NodeRef → Word}
    (hsplit : g.listing root = p ++ n :: q)
    (h : ∀ m ∈ p, g.IsSum m → cell m = g.value row m) {c : NodeRef}
    (hc : c ∈ (g.node n).children) (hsum : g.IsSum c) (stale : Word) :
    Scalar.fetch g (g.rowLeaf row) cell (some c) stale = g.value row c := by
  have hpost := g.postOrder_listing root
  rw [hsplit] at hpost
  by_cases hk : g.kind c = .load ∨ g.kind c = .const
  · rw [Scalar.fetch_leaf hk, rowLeaf_eq_word hk, Graph.word_of_bitplane hsum.resultKind]
  · rw [Scalar.fetch_inner hk]
    exact h c (hpost.children_mem c hc) hsum

/-- **Evaluating a node** makes its cell right, when those before it are. -/
theorem cellRight_evalNode {p q : List NodeRef} {s : RowState}
    (hsplit : g.listing root = p ++ n :: q) (h : ∀ m ∈ p, CellRight g row m (s.cell m)) :
    CellRight g row n (Scalar.evalNode g (g.rowLeaf row) s n).res := by
  have hfetch : ∀ c ∈ (g.node n).children, g.IsSum c → ∀ stale,
      Scalar.fetch g (g.rowLeaf row) s.cell (some c) stale = g.value row c :=
    fun c hc hsum stale => fetch_of_isSum hsplit (fun m hm => (h m hm).1) hc hsum stale
  simp only [Scalar.evalNode]
  constructor
  · intro hsum
    by_cases hadd : (g.kind n).isAdder = true
    · obtain ⟨l, r, hl, hr, hls, hrs⟩ := hsum.operands hadd
      rw [hl, hr, hfetch l (Node.mem_children.mpr (Or.inl hl)) hls,
        hfetch r (Node.mem_children.mpr (Or.inr (Or.inl hr))) hrs, Scalar.result]
      cases hk : g.kind n with
      | add => exact (value_of_add hk hl hr).symm
      | sub => exact (value_of_sub hk hl hr).symm
      | _ => exact absurd hadd (by rw [hk]; decide)
    · have hleaf := hsum.leaf (by simpa using hadd)
      have hres : ∀ a b s, Scalar.result g (g.rowLeaf row) n a b s = g.rowLeaf row n := by
        intro a b s
        rcases hleaf with hk | hk <;> simp only [Scalar.result, hk]
      rw [hres, rowLeaf_eq_word hleaf, Graph.word_of_bitplane hsum.resultKind]
  · intro lesser greater hcmp
    rcases hcmp.operands with ⟨hk, hl, hr⟩ | ⟨hk, hl, hr⟩
    · rw [hl, hr, hfetch _ (Node.mem_children.mpr (Or.inl hl)) hcmp.greater,
        hfetch _ (Node.mem_children.mpr (Or.inr (Or.inl hr))) hcmp.lesser]
      simp only [Scalar.result, hk]
    · rw [hl, hr, hfetch _ (Node.mem_children.mpr (Or.inl hl)) hcmp.lesser,
        hfetch _ (Node.mem_children.mpr (Or.inr (Or.inl hr))) hcmp.greater]
      simp only [Scalar.result, hk]

/-- The cell of a comparison at the end of a row, from whatever the row starts. -/
theorem cell_of_compares (hn : n ∈ g.listing root) (h : g.Compares n lesser greater)
    (s : RowState) :
    (Scalar.evalRow g (g.rowLeaf row) root s).cell n =
      if decide (g.exact row lesser % 2 ^ 64 < g.exact row greater % 2 ^ 64) then 1 else 0 := by
  have hcell := (evalRow_induction (C := CellRight g row)
    (fun hsplit hcells _ => cellRight_evalNode hsplit hcells) s n hn).2 lesser greater h
  rw [hcell, value_eq_ofInt h.lesser, value_eq_ofInt h.greater]
  simp only [ofInt_lt_ofInt_iff, decide_eq_true_iff]

/-- **What a kernel decides about a comparison**: the unsigned order of its sides, less what
is missed. -/
theorem decision_eq (hsums : g.ComparesSums root) (hn : HasCode mode g root n)
    (h : g.Compares n lesser greater) (hr : r < 64) :
    decision mode g rows root x2 x3 x5 n r =
      decide ((g.exact (rows r) lesser - g.lag mode r lesser) % 2 ^ 64 <
        (g.exact (rows r) greater - g.lag mode r greater) % 2 ^ 64) := by
  cases mode with
  | bitSliced => rw [decision_bitSliced hsums hn.2 hr, verdict_of_compares h]
  | scalar =>
    simp only [decision, cell_of_compares hn.2 h, Graph.lag, sub_zero]
    split
    · rename_i hlt
      rw [hlt]
      rfl
    · rename_i hlt
      rw [Bool.not_eq_true] at hlt
      rw [hlt]
      rfl

/-- When every row leaves a truth value in the cell of the root, the mask of the rows is made
of these. -/
theorem scalarMask_of_cell {b : Graph.Row → Bool}
    (hcell : ∀ row s, (Scalar.evalRow g (g.rowLeaf row) root s).cell root = if b row then 1 else 0)
    (hr : r < 64) : (kernelMask g rows .scalar root x2 x3 x5).getLsbD r = b (rows r) := by
  have hwords : ∀ j < 64, (Scalar.evalRow g (g.rowLeaf (rows j)) root
      (Scalar.evalRows g root (fun k => g.rowLeaf (rows k)) ⟨x2, x3, x5, fun _ => 0⟩ j).1).res =
        if b (rows j) then 1 else 0 := fun j _ => by
    rw [← Scalar.evalRow_cell_root, hcell]
  rw [Bool.eq_iff_iff, kernelMask, Scalar.mask, evalRows_words, exists_shiftLeft_iff hwords hr]

/-- A comparison is read as zero or one. -/
theorem read_of_isComparison (h : (g.kind n).isComparison = true) :
    g.read root row n = if (g.read root row n).getLsbD 0 then 1 else 0 := by
  rw [read_of_hasCode (by revert h; cases g.kind n <;> decide), Graph.readStep]
  cases hk : g.kind n with
  | gt | lt | eq => dsimp only; split <;> rfl
  | _ => exact absurd h (by rw [hk]; decide)

/-- **The mask of a scalar kernel** is what the connectives make of its decisions. -/
theorem scalarMask_eq_connect (hw : g.WellTyped root) (hfollow : FollowMasks g (g.listing root))
    (hr : r < 64) :
    (kernelMask g rows .scalar root x2 x3 x5).getLsbD r =
      g.connect root (fun n => decision .scalar g rows root x2 x3 x5 n r) root := by
  have hread : ∀ (row : Graph.Row) (decided : NodeRef → Bool),
      (∀ n ∈ g.listing root, decided n = (g.read root row n).getLsbD 0) →
      g.read root row root = if g.connect root decided root then 1 else 0 := by
    intro row decided h
    refine read_eq_connect hw hfollow (fun n hn hk => ?_) (g.root_mem_listing root) hw.mask
    rw [h n hn]
    exact read_of_isComparison hk
  rw [scalarMask_of_cell (b := fun row => (g.read root row root).getLsbD 0) (fun row s => ?_) hr]
  · rw [hread (rows r) (fun n => decision .scalar g rows root x2 x3 x5 n r) fun n hn => by
      simp only [decision, cell_eq_read hw hn]]
    split <;> simp_all
  · rw [cell_eq_read hw (g.root_mem_listing root), hread row _ fun _ _ => rfl]
    split <;> rfl

/-- A mask is made of decisions: in bit-sliced mode it is the conjunction of those with code.
In scalar mode it is the decision of a lone comparison, and what the connectives make of all
of them in a typed expression whose negations and selections stand for conditions. -/
def MadeOf (mode : ExecutionMode) (g : Graph) (root : NodeRef) (mask : Word)
    (decided : NodeRef → ℕ → Bool) : Prop :=
  match mode with
  | .bitSliced => ∀ r < 64, mask.getLsbD r = (Circuit.compared g root).all fun n => decided n r
  | .scalar =>
      (g.kind root = .gt ∨ g.kind root = .lt → ∀ r < 64, mask.getLsbD r = decided root r) ∧
      (g.WellTyped root → FollowMasks g (g.listing root) → ∀ r < 64,
        mask.getLsbD r = g.connect root (fun n => decided n r) root)

theorem madeOf_kernelMask (hsums : g.ComparesSums root) :
    MadeOf mode g root (kernelMask g rows mode root x2 x3 x5)
      (decision mode g rows root x2 x3 x5) := by
  cases mode with
  | bitSliced =>
    intro r hr
    have hmask := Circuit.mask_getLsbD hr (values_sumIn g root)
      (ordered_adderNodes g root) (fun n hn hadd => mem_adderNodes.mpr ⟨hn.1, hadd⟩)
      (comparable_of_comparesSums hsums) (rowInputs_sumIn g root rows hr) x2 x3
    rw [kernelMask, hmask, Bool.eq_iff_iff, List.all_eq_true, List.all_eq_true]
    exact forall₂_congr fun n hn => by rw [decision_bitSliced hsums hn hr]
  | scalar =>
    refine ⟨fun hk r hr => ?_, fun hw hfollow r hr => scalarMask_eq_connect hw hfollow hr⟩
    obtain ⟨lesser, greater, h⟩ := hsums root (g.root_mem_listing root) hk
    rw [scalarMask_of_cell (fun row s => cell_of_compares (g.root_mem_listing root) h s) hr,
      decision_eq hsums ⟨hk, g.root_mem_listing root⟩ h hr]
    simp only [Graph.lag, sub_zero]

end Decisions

section Calls

variable {mode : ExecutionMode} {heap : ℕ → Word} {g : Graph} {root : NodeRef}
  {st st' : CompileState} {code : List A64.Item} {caller : Caller} {planes : Planes}
  {scratch : Scratch} {rows : ℕ → Graph.Row}

/-- **Where comparisons are in signed order**: a call returns a mask that is made of
decisions, and a listed comparison is decided as the exact values of its sides are ordered
exactly when it has code and this order is kept.  Where nothing is missed from the sides, the
order is kept when both are negative or neither is. -/
theorem signedOrder_iff (hcompile : compile mode heap g (some root) st = (some code, st'))
    (hfits : Fits g mode root) (hsums : g.ComparesSums root) (hpool : st'.pool ⊆ caller.pool)
    (hp : Presents mode g root st'.metas planes rows)
    (hkeeps : Keeps g mode root st'.metas scratch) :
    ∃ m S decided, caller.callExpr code planes scratch = some (m, S) ∧
      decided = decision mode g rows root (caller.regs .x2) (caller.regs .x3) (caller.regs .x5) ∧
      MadeOf mode g root m decided ∧
      ∀ n ∈ g.listing root, ∀ lesser greater, g.Compares n lesser greater → ∀ r < 64,
        (HasCode mode g root n ∧
            decided n r = decide (g.exact (rows r) lesser < g.exact (rows r) greater) ↔
          HasCode mode g root n ∧ g.OrderKept (rows r) mode r lesser greater) ∧
        (g.lag mode r lesser = 0 → g.lag mode r greater = 0 →
          InInt64 (g.exact (rows r) lesser) → InInt64 (g.exact (rows r) greater) →
          (HasCode mode g root n ∧
              decided n r = decide (g.exact (rows r) lesser < g.exact (rows r) greater) ↔
            HasCode mode g root n ∧
              (g.exact (rows r) lesser < 0 ↔ g.exact (rows r) greater < 0))) := by
  obtain ⟨S, hrun, -⟩ := call_compiled hcompile hfits hpool hp hkeeps
  refine ⟨_, S, _, hrun, rfl, madeOf_kernelMask hsums, fun n _ lesser greater h r hr => ?_⟩
  have hiff : HasCode mode g root n → (decision mode g rows root (caller.regs .x2)
      (caller.regs .x3) (caller.regs .x5) n r =
        decide (g.exact (rows r) lesser < g.exact (rows r) greater) ↔
      g.OrderKept (rows r) mode r lesser greater) := by
    intro hn
    rw [decision_eq hsums hn h hr, decide_eq_decide]
    exact Iff.rfl
  exact ⟨and_congr_right hiff, fun hl hg hfitl hfitg =>
    and_congr_right fun hn => (hiff hn).trans (orderKept_iff_signs hl hg hfitl hfitg)⟩

/-- The scalar kernel of `GT(Load("a"), Const(5))` on 64 rows with `a = 7`. -/
theorem signedOrder_iff_threshold : ∃ code ms m S,
    compile .scalar standardHeap (thresholdGraph (.ofString [97]) 5) (some 2) ⟨fun _ => {}, []⟩ =
      (some code, ⟨ms, []⟩) ∧
    (Caller.standard [] (by decide)).callExpr code
      (presented .scalar (thresholdGraph (.ofString [97]) 5) 2 fun _ _ => 7) (fun _ => 0) =
        some (m, S) ∧
    ∀ r < 64, m.getLsbD r = true := by
  have hcompile := compile_scalar standardHeap (thresholdGraph (.ofString [97]) 5) 2
    ⟨fun _ => {}, []⟩
  have hcompares : (thresholdGraph (.ofString [97]) 5).Compares 2 1 0 :=
    ⟨Or.inl ⟨rfl, rfl, rfl⟩, .const rfl, .load rfl⟩
  have hsums : (thresholdGraph (.ofString [97]) 5).ComparesSums 2 := by
    intro n hn hk
    rw [listing_threshold] at hn
    simp only [List.mem_cons, List.not_mem_nil, or_false] at hn
    rcases hn with rfl | rfl | rfl
    · exact absurd hk (by decide)
    · exact absurd hk (by decide)
    · exact ⟨1, 0, hcompares⟩
  have hpool : ([] : ConstPool) ⊆ (Caller.standard [] (by decide)).pool := List.nil_subset _
  obtain ⟨m, S, decided, hrun, -, hmade, hdecided⟩ := signedOrder_iff hcompile
    (fun _ => ⟨by decide, by decide⟩) hsums hpool (presents_presented hcompile fun _ _ => 7)
    (keeps_zero .scalar _ 2 _)
  refine ⟨_, _, m, S, hcompile, hrun, fun r hr => ?_⟩
  have hlesser : (thresholdGraph (.ofString [97]) 5).exact (fun _ => 7) 1 = 5 := rfl
  have hgreater : (thresholdGraph (.ofString [97]) 5).exact (fun _ => 7) 0 = 7 := rfl
  have hmem : (2 : NodeRef) ∈ (thresholdGraph (.ofString [97]) 5).listing 2 := by decide
  have hsigns := (hdecided 2 hmem 1 0 hcompares r hr).2 rfl rfl
  rw [hlesser, hgreater] at hsigns
  rw [hmade.1 (Or.inl rfl) r hr,
    ((hsigns (by decide) (by decide)).mpr ⟨⟨Or.inl rfl, by decide⟩, by decide⟩).2]
  rfl

/-- The comparison that an expression consists of is decided in signed order, in a mode. -/
def SignedOrder (mode : ExecutionMode) : Prop :=
  ∀ (heap : ℕ → Word) (g : Graph) (root : NodeRef) (st st' : CompileState)
    (code : List A64.Item) (caller : Caller) (planes : Planes) (scratch : Scratch)
    (rows : ℕ → Graph.Row), compile mode heap g (some root) st = (some code, st') →
    Fits g mode root → g.ComparesSums root → st'.pool ⊆ caller.pool →
    Presents mode g root st'.metas planes rows → Keeps g mode root st'.metas scratch →
    ∃ m S, caller.callExpr code planes scratch = some (m, S) ∧
      ∀ lesser greater, g.Compares root lesser greater → ∀ r < 64,
        InInt64 (g.exact (rows r) lesser) → InInt64 (g.exact (rows r) greater) →
        m.getLsbD r = decide (g.exact (rows r) lesser < g.exact (rows r) greater)

theorem compares_diff (f f' : StringView) (T : Word) : (diffGraph f f' T).Compares 4 2 3 :=
  ⟨Or.inl ⟨rfl, rfl, rfl⟩, .adder rfl rfl rfl (.load rfl) (.load rfl), .const rfl⟩

theorem comparesSums_diff (f f' : StringView) (T : Word) : (diffGraph f f' T).ComparesSums 4 := by
  intro n hn hk
  rw [listing_diff] at hn
  simp only [List.mem_cons, List.not_mem_nil, or_false] at hn
  rcases hn with rfl | rfl | rfl | rfl | rfl
  · exact absurd hk (by simp [show (diffGraph f f' T).kind 3 = .const from rfl])
  · exact absurd hk (by simp [show (diffGraph f f' T).kind 0 = .load from rfl])
  · exact absurd hk (by simp [show (diffGraph f f' T).kind 1 = .load from rfl])
  · exact absurd hk (by simp [show (diffGraph f f' T).kind 2 = .sub from rfl])
  · exact ⟨2, 3, compares_diff f f' T⟩

/-- **A negative difference is not below a constant**, in neither mode: on 64 rows with
`a = 0` and `b = 1`, `LT(Sub(Load("a"), Load("b")), Const(5))` does not hold in the first
lane. -/
theorem signedOrder_difference : ¬ SignedOrder .bitSliced ∧ ¬ SignedOrder .scalar := by
  have hfails : ∀ mode code st', compile mode standardHeap
      (diffGraph (.ofString [97]) (.ofString [98]) 5) (some 4) ⟨fun _ => {}, []⟩ =
        (some code, st') → st'.pool ⊆ (Caller.standard [5] (by decide)).pool →
      laneVerdict (diffGraph (.ofString [97]) (.ofString [98]) 5)
        (fun _ f => if f = [97] then 0 else 1) mode 4 0 = false → ¬ SignedOrder mode := by
    intro mode code st' hcompile hpool hverdict h
    have hp := presents_presented hcompile fun _ f => if f = [97] then 0 else 1
    have hfits : Fits (diffGraph (.ofString [97]) (.ofString [98]) 5) mode 4 :=
      fun _ => ⟨by decide, by decide⟩
    have hkeeps := keeps_zero mode (diffGraph (.ofString [97]) (.ofString [98]) 5) 4 st'.metas
    obtain ⟨m, S, hrun, hm⟩ := h _ _ _ _ _ _ _ _ _ _ hcompile hfits (comparesSums_diff _ _ _)
      hpool hp hkeeps
    obtain ⟨S', hrun', -⟩ := call_compiled hcompile hfits hpool hp hkeeps
    rw [hrun] at hrun'
    obtain ⟨rfl, -⟩ := Prod.mk.inj (Option.some.inj hrun')
    have hlane := hm 2 3 (compares_diff _ _ _) 0 (by omega) (by decide) (by decide)
    rw [kernelMask_getLsbD (wellTyped_diff _ _ _) _ _ _ _ (by omega), hverdict] at hlane
    exact absurd hlane (by decide)
  constructor
  · obtain ⟨konst, pool, hcompile, -⟩ := compileExpression_ok standardHeap
      (diffGraph (.ofString [97]) (.ofString [98]) 5) 4 ⟨fun _ => {}, []⟩ (by decide) (by decide)
    have hone : pool = [(5, standardHeap 0)] := congrArg (fun x => x.2.pool) hcompile.symm
    refine hfails .bitSliced _ _ hcompile ?_ rfl
    rw [hone]
    exact List.Subset.refl _
  · exact hfails .scalar _ _ (compile_scalar _ _ _ _) (List.nil_subset _) rfl

end Calls
end Jit
end ApexEngine
