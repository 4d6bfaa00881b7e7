import ApexEngine.Jit.CompiledKernel
import ApexEngine.Jit.Conjunction
import ApexEngine.Jit.Signed

/-!
# Greater, less and equal

Of two numbers one is greater, or the other is, or they are equal, and the masks that
three kernels return for the three comparisons should divide the rows accordingly.  The
three are compiled separately, maybe from nodes of different pools and for different
threads; what they have in common is that their operands have the same values on every
row (`ComparisonKernel`).  The builder makes a less-than as a greater-than with exchanged
operands, while the node kind for it exists, and both are meant here
(`Graph.Builds`).

The operands are additions of fields and constants.  In scalar mode the masks are a
partition.  In bit-sliced mode the mask of a greater-than or less-than is right as well;
the comparator keeps in a second register which lanes have been equal so far, and after
the last bit this register is the mask of the equality.  But an equality has no code: its
registers are set up, no step is taken, and what is returned is the first of them, which
is zero.  So the rows with equal operands are in none of the three masks, and the masks
are a partition exactly when there are no such rows (`trichotomy_iff`).
-/

namespace ApexEngine
namespace Jit

open A64 (Word)
open Scalar (RowState)

/-! ## Comparisons -/

/-- Whether two numbers compare as a kind of comparison says. -/
def NodeKind.holds : NodeKind → Word → Word → Bool
  | .gt, x, y => decide (y < x)
  | .lt, x, y => decide (x < y)
  | .eq, x, y => decide (x = y)
  | _, _, _ => false

namespace Graph

variable (g : Graph)

/-- A value made of fields and constants by additions. -/
inductive IsAddition : NodeRef → Prop where
  | load {n : NodeRef} : g.kind n = .load → IsAddition n
  | const {n : NodeRef} : g.kind n = .const → IsAddition n
  | add {n left right : NodeRef} : g.kind n = .add → (g.node n).left = some left →
      (g.node n).right = some right → IsAddition left → IsAddition right → IsAddition n

/-- A node for a comparison of two others.  There are two for a less-than: the one of its
own kind, and the one the builder makes. -/
inductive Builds : NodeKind → NodeRef → NodeRef → NodeRef → Prop where
  | gt {n x y : NodeRef} : g.kind n = .gt → (g.node n).left = some x →
      (g.node n).right = some y → Builds .gt n x y
  | lt {n x y : NodeRef} : g.kind n = .lt → (g.node n).left = some x →
      (g.node n).right = some y → Builds .lt n x y
  | exchanged {n x y : NodeRef} : g.kind n = .gt → (g.node n).left = some y →
      (g.node n).right = some x → Builds .lt n x y
  | eq {n x y : NodeRef} : g.kind n = .eq → (g.node n).left = some x →
      (g.node n).right = some y → Builds .eq n x y

end Graph

/-- **What the builder makes** of two nodes is what it says, as long as there is room. -/
theorem NodePool.builds_of_binary {p : NodePool} (hroom : p.nextIdx < maxNodes) (a b : NodeRef) :
    (∀ h, ((p.gt (some a) (some b)).2.graph h).Builds .gt p.nextIdx a b) ∧
    (∀ h, ((p.lt (some a) (some b)).2.graph h).Builds .lt p.nextIdx a b) ∧
    ∀ h, ((p.eq (some a) (some b)).2.graph h).Builds .eq p.nextIdx a b := by
  have hnode : ∀ kind x y (h : (p.binary kind (some x) (some y)).2.Ordered),
      (((p.binary kind (some x) (some y)).2.graph h).node p.nextIdx).kind = kind ∧
      (((p.binary kind (some x) (some y)).2.graph h).node p.nextIdx).left = some x ∧
      (((p.binary kind (some x) (some y)).2.graph h).node p.nextIdx).right = some y := by
    intro kind x y h
    simp only [NodePool.graph, NodePool.binary, NodePool.build_of_lt hroom, Function.update_self,
      and_self]
  refine ⟨fun h => ?_, fun h => ?_, fun h => ?_⟩
  · obtain ⟨hk, hl, hr⟩ := hnode .gt a b h
    exact .gt hk hl hr
  · obtain ⟨hk, hl, hr⟩ := hnode .gt b a h
    exact .exchanged hk hl hr
  · obtain ⟨hk, hl, hr⟩ := hnode .eq a b h
    exact .eq hk hl hr

section Comparisons

variable {g : Graph} {op : NodeKind} {row : Graph.Row} {root n x y : NodeRef}

theorem Graph.IsAddition.isSum (h : g.IsAddition n) : g.IsSum n := by
  induction h with
  | load hk => exact .load hk
  | const hk => exact .const hk
  | add hk hl hr _ _ ihl ihr => exact .adder (by rw [hk]; rfl) hl hr ihl ihr

/-- Additions miss nothing. -/
theorem Graph.IsAddition.borrows_eq_zero (h : g.IsAddition n) : g.borrows n = 0 := by
  induction h with
  | load hk | const hk => exact borrows_of_not_adder (by rw [hk]; rfl)
  | add hk hl hr _ _ ihl ihr => rw [borrows_of_add hk hl hr, ihl, ihr, add_zero]

theorem Graph.Builds.isComparison (h : g.Builds op n x y) : (g.kind n).isComparison = true := by
  cases h with
  | gt hk | lt hk | exchanged hk | eq hk => rw [hk]; rfl

/-- A comparison is true when its operands are so ordered. -/
theorem Graph.Builds.truth_eq (h : g.Builds op n x y) :
    g.truth row n = op.holds (g.value row x) (g.value row y) := by
  rw [g.truth_eq, Graph.truthStep]
  cases h with
  | gt hk hl hr | lt hk hl hr | exchanged hk hl hr | eq hk hl hr =>
    simp only [hk, hl, hr, Graph.operandValue, Option.map_some, Option.getD_some, NodeKind.holds]

/-! ## What a kernel decides -/

/-- A comparison that is compiled alone has the first registers. -/
theorem compared_of_isComparison (h : (g.kind root).isComparison = true) :
    Circuit.compared g root = [root] := by
  rw [Circuit.compared, collectComparisons_eq, conjuncts_of_ne_and fun hk => by
    rw [hk] at h
    exact absurd h (by decide), List.filter_singleton, h]
  rfl

/-- **The bit-sliced comparator**: a greater-than and a less-than are decided as they should,
an equality never holds. -/
theorem Graph.Builds.verdict_eq (h : g.Builds op n x y) (hx : g.IsAddition x)
    (hy : g.IsAddition y) (lane : ℕ) :
    Circuit.verdict g (g.slicedLeaf row) lane n =
      (op.holds (g.value row x) (g.value row y) && decide (op ≠ .eq)) := by
  have hcompares : ∀ {lesser greater}, g.Compares n lesser greater →
      g.borrows lesser = 0 → g.borrows greater = 0 →
      Circuit.verdict g (g.slicedLeaf row) lane n = op.holds (g.value row x) (g.value row y) :=
    fun hcmp hl hg => (hcmp.verdict_eq_truth hl hg).trans h.truth_eq
  have hx0 := hx.borrows_eq_zero
  have hy0 := hy.borrows_eq_zero
  cases h with
  | gt hk hl hr =>
    rw [hcompares ⟨Or.inl ⟨hk, hl, hr⟩, hy.isSum, hx.isSum⟩ hy0 hx0]
    exact (Bool.and_true _).symm
  | lt hk hl hr =>
    rw [hcompares ⟨Or.inr ⟨hk, hl, hr⟩, hx.isSum, hy.isSum⟩ hx0 hy0]
    exact (Bool.and_true _).symm
  | exchanged hk hl hr =>
    rw [hcompares ⟨Or.inl ⟨hk, hl, hr⟩, hx.isSum, hy.isSum⟩ hx0 hy0]
    exact (Bool.and_true _).symm
  | eq hk =>
    simp only [Circuit.verdict, hk]
    exact (Bool.and_false _).symm

/-- What a row's cells have: sums their values, comparisons of sums a truth value. -/
def CellCompared (g : Graph) (row : Graph.Row) (n : NodeRef) (w : Word) : Prop :=
  CellRight g row n w ∧ ∀ op x y, g.Builds op n x y → g.IsSum x → g.IsSum y →
    w = if op.holds (g.value row x) (g.value row y) then 1 else 0

/-- **Evaluating a node** makes its cell compare as it should, when those before it are right. -/
theorem cellCompared_evalNode {p q : List NodeRef} {s : RowState}
    (hsplit : g.listing root = p ++ n :: q) (h : ∀ m ∈ p, CellCompared g row m (s.cell m)) :
    CellCompared g row n (Scalar.evalNode g (g.rowLeaf row) s n).res := by
  refine ⟨cellRight_evalNode hsplit fun m hm => (h m hm).1, fun op x y hbuilds hx hy => ?_⟩
  have hleft : ∀ {c}, (g.node n).left = some c → g.IsSum c → ∀ stale,
      Scalar.fetch g (g.rowLeaf row) s.cell (some c) stale = g.value row c := fun hc hsum =>
    fetch_of_isSum hsplit (fun m hm => (h m hm).1.1) (Node.mem_children.mpr (Or.inl hc)) hsum
  have hright : ∀ {c}, (g.node n).right = some c → g.IsSum c → ∀ stale,
      Scalar.fetch g (g.rowLeaf row) s.cell (some c) stale = g.value row c := fun hc hsum =>
    fetch_of_isSum hsplit (fun m hm => (h m hm).1.1)
      (Node.mem_children.mpr (Or.inr (Or.inl hc))) hsum
  simp only [Scalar.evalNode]
  cases hbuilds with
  | gt hk hl hr | lt hk hl hr | eq hk hl hr =>
    simp only [hl, hr, hleft hl hx, hright hr hy, Scalar.result, hk, NodeKind.holds,
      decide_eq_true_iff]
  | exchanged hk hl hr =>
    simp only [hl, hr, hleft hl hy, hright hr hx, Scalar.result, hk, NodeKind.holds,
      decide_eq_true_iff]

/-- The cell of a comparison at the end of a row, from whatever the row starts. -/
theorem cell_of_builds (hn : n ∈ g.listing root) (h : g.Builds op n x y) (hx : g.IsSum x)
    (hy : g.IsSum y) (s : RowState) :
    (Scalar.evalRow g (g.rowLeaf row) root s).cell n =
      if op.holds (g.value row x) (g.value row y) then 1 else 0 :=
  (evalRow_induction (C := CellCompared g row)
    (fun hsplit hcells _ => cellCompared_evalNode hsplit hcells) s n hn).2 op x y h hx hy

/-- **The mask of a comparison of additions**, in a lane. -/
theorem Graph.Builds.kernelMask_getLsbD (h : g.Builds op root x y) (hx : g.IsAddition x)
    (hy : g.IsAddition y) (mode : ExecutionMode) (rows : ℕ → Graph.Row) (x2 x3 x5 : Word) {r : ℕ}
    (hr : r < 64) :
    (kernelMask g rows mode root x2 x3 x5).getLsbD r =
      (op.holds (g.value (rows r) x) (g.value (rows r) y) &&
        decide (mode = .scalar ∨ op ≠ .eq)) := by
  cases mode with
  | bitSliced =>
    have hcompared := compared_of_isComparison h.isComparison
    rw [kernelMask, Circuit.mask_getLsbD hr (values_sumIn g root) (ordered_adderNodes g root)
      (fun n hn hadd => mem_adderNodes.mpr ⟨hn.1, hadd⟩) ?_ (rowInputs_sumIn g root rows hr),
      hcompared, List.all_cons, List.all_nil, Bool.and_true, h.verdict_eq hx hy]
    · simp
    · intro n hn hk
      rw [hcompared, List.mem_singleton] at hn
      subst hn
      have hmem := g.root_mem_listing n
      cases h with
      | gt _ hl hr | lt _ hl hr =>
        exact ⟨_, _, hl, hr, ⟨Graph.mem_listing_left hmem hl, hx.isSum⟩,
          Graph.mem_listing_right hmem hr, hy.isSum⟩
      | exchanged _ hl hr =>
        exact ⟨_, _, hl, hr, ⟨Graph.mem_listing_left hmem hl, hy.isSum⟩,
          Graph.mem_listing_right hmem hr, hx.isSum⟩
      | eq heq => exact absurd hk (by rw [heq]; decide)
  | scalar =>
    rw [scalarMask_of_cell
      (fun row s => cell_of_builds (g.root_mem_listing root) h hx.isSum hy.isSum s) hr]
    simp

end Comparisons

/-! ## The partition -/

/-- A kernel for a comparison of two additions, of which only the values on each row are
given.  The operands may be nodes of any graph. -/
structure ComparisonKernel (mode : ExecutionMode) (op : NodeKind) (u v : Graph.Row → Word) where
  graph : Graph
  root : NodeRef
  x : NodeRef
  y : NodeRef
  builds : graph.Builds op root x y
  addition_x : graph.IsAddition x
  addition_y : graph.IsAddition y
  value_x : ∀ row, graph.value row x = u row
  value_y : ∀ row, graph.value row y = v row
  kernel : CompiledKernel mode graph root

/-- The masks of three kernels divide 64 rows: every row is in exactly one of them, and those
with equal operands are in the last. -/
def Partitions {mode : ExecutionMode} {u v : Graph.Row → Word}
    (gt : ComparisonKernel mode .gt u v) (lt : ComparisonKernel mode .lt u v)
    (eq : ComparisonKernel mode .eq u v) (rows : ℕ → Graph.Row) : Prop :=
  ∃ mgt mlt meq, gt.kernel.Returns rows mgt ∧ lt.kernel.Returns rows mlt ∧
    eq.kernel.Returns rows meq ∧
    ∀ r < 64, [mgt.getLsbD r, mlt.getLsbD r, meq.getLsbD r].count true = 1 ∧
      (meq.getLsbD r = true ↔ u (rows r) = v (rows r))

section Partition

variable {mode : ExecutionMode} {op : NodeKind} {u v : Graph.Row → Word}

/-- The mask of a comparison in a lane. -/
theorem ComparisonKernel.mask_getLsbD (k : ComparisonKernel mode op u v) (rows : ℕ → Graph.Row)
    {r : ℕ} (hr : r < 64) :
    (k.kernel.mask rows).getLsbD r =
      (op.holds (u (rows r)) (v (rows r)) && decide (mode = .scalar ∨ op ≠ .eq)) := by
  rw [← k.value_x, ← k.value_y]
  exact k.builds.kernelMask_getLsbD k.addition_x k.addition_y mode rows _ _ _ hr

/-- Exactly one of the three comparisons holds; without the equality, one does when the
numbers differ. -/
theorem count_holds (a b : Word) :
    [NodeKind.gt.holds a b, NodeKind.lt.holds a b, NodeKind.eq.holds a b].count true = 1 ∧
      ([NodeKind.gt.holds a b, NodeKind.lt.holds a b, false].count true = 1 ↔ a ≠ b) := by
  rcases Nat.lt_trichotomy a.toNat b.toNat with hlt | heq | hgt
  · have hab : a < b := hlt
    have hba : ¬ b < a := Nat.lt_asymm hlt
    have hne : a ≠ b := fun h => absurd hlt (by rw [h]; exact Nat.lt_irrefl _)
    simp [NodeKind.holds, hab, hba, hne]
  · obtain rfl := BitVec.eq_of_toNat_eq heq
    have haa : ¬ a < a := Nat.lt_irrefl _
    simp [NodeKind.holds, haa]
  · have hba : b < a := hgt
    have hab : ¬ a < b := Nat.lt_asymm hgt
    have hne : a ≠ b := fun h => absurd hgt (by rw [h]; exact Nat.lt_irrefl _)
    simp [NodeKind.holds, hab, hba, hne]

/-- **Where the three masks are a partition**: in scalar mode always, in bit-sliced mode on
rows whose operands are all different. -/
theorem trichotomy_iff (gt : ComparisonKernel mode .gt u v) (lt : ComparisonKernel mode .lt u v)
    (eq : ComparisonKernel mode .eq u v) (rows : ℕ → Graph.Row) :
    Partitions gt lt eq rows ↔ mode = .scalar ∨ ∀ r < 64, u (rows r) ≠ v (rows r) := by
  constructor
  · rintro ⟨mgt, mlt, meq, hgt, hlt, heq, hlanes⟩
    rw [gt.kernel.returns_iff] at hgt
    rw [lt.kernel.returns_iff] at hlt
    rw [eq.kernel.returns_iff] at heq
    subst hgt hlt heq
    cases mode with
    | scalar => exact Or.inl rfl
    | bitSliced =>
      -- the mask of the equality is zero, so a row with equal operands is in none
      refine Or.inr fun r hr hsame => ?_
      have hset := (hlanes r hr).2.mpr hsame
      rw [eq.mask_getLsbD rows hr] at hset
      simp at hset
  · intro h
    refine ⟨_, _, _, gt.kernel.returns_mask rows, lt.kernel.returns_mask rows,
      eq.kernel.returns_mask rows, fun r hr => ?_⟩
    have hcount := count_holds (u (rows r)) (v (rows r))
    rw [gt.mask_getLsbD rows hr, lt.mask_getLsbD rows hr, eq.mask_getLsbD rows hr]
    cases mode with
    | scalar => exact ⟨by simpa using hcount.1, by simp [NodeKind.holds]⟩
    | bitSliced =>
      have hne := h.resolve_left (by decide) r hr
      exact ⟨by simpa using hcount.2.mpr hne, by simpa using hne⟩

end Partition

/-! ## A field and a constant -/

/-- The comparisons of the field `a` with 5: a greater-than, a less-than as the builder makes
it, and an equality. -/
def withFive : ℕ → Node
  | 0 => { kind := .load, fieldName := [97] }
  | 1 => { kind := .const, constValue := 5 }
  | 2 => { kind := .gt, left := some 0, right := some 1 }
  | 3 => { kind := .gt, left := some 1, right := some 0 }
  | 4 => { kind := .eq, left := some 0, right := some 1 }
  | _ => { kind := .load }

/-- The graph of these nodes. -/
def withFiveGraph : Graph where
  node := withFive
  rank := id
  rank_lt i c hc := by
    unfold withFive at hc
    split at hc <;> simp [Node.children] at hc <;> rcases hc with rfl | rfl <;> decide

/-- A kernel of one of them. -/
def withFiveKernel {mode : ExecutionMode} {op : NodeKind} {root : NodeRef}
    (h : withFiveGraph.Builds op root 0 1) (kernel : CompiledKernel mode withFiveGraph root) :
    ComparisonKernel mode op (fun row => row [97]) fun _ => 5 where
  graph := withFiveGraph
  root := root
  x := 0
  y := 1
  builds := h
  addition_x := .load rfl
  addition_y := .const rfl
  value_x _ := rfl
  value_y _ := rfl
  kernel := kernel

/-- There are kernels of the three in either mode. -/
theorem nonempty_withFive (mode : ExecutionMode) :
    Nonempty (ComparisonKernel mode .gt (fun row => row [97]) fun _ => 5) ∧
    Nonempty (ComparisonKernel mode .lt (fun row => row [97]) fun _ => 5) ∧
    Nonempty (ComparisonKernel mode .eq (fun row => row [97]) fun _ => 5) := by
  have hkernel : ∀ root : NodeRef, root = 2 ∨ root = 3 ∨ root = 4 →
      Nonempty (CompiledKernel mode withFiveGraph root) := by
    intro root hroot
    cases mode with
    | bitSliced =>
      rcases hroot with rfl | rfl | rfl <;>
        exact CompiledKernel.nonempty_bitSliced [5] (by decide) rfl (by decide)
    | scalar =>
      refine CompiledKernel.nonempty_scalar fun _ => ?_
      rcases hroot with rfl | rfl | rfl <;> exact ⟨by decide, by decide⟩
  obtain ⟨gt⟩ := hkernel 2 (Or.inl rfl)
  obtain ⟨lt⟩ := hkernel 3 (Or.inr (Or.inl rfl))
  obtain ⟨eq⟩ := hkernel 4 (Or.inr (Or.inr rfl))
  exact ⟨⟨withFiveKernel (.gt rfl rfl rfl) gt⟩, ⟨withFiveKernel (.exchanged rfl rfl rfl) lt⟩,
    ⟨withFiveKernel (.eq rfl rfl rfl) eq⟩⟩

/-- The scalar kernels divide rows with `a = 5`. -/
theorem trichotomy_iff_five :
    ∃ (gt : ComparisonKernel .scalar .gt (fun row => row [97]) fun _ => 5)
      (lt : ComparisonKernel .scalar .lt (fun row => row [97]) fun _ => 5)
      (eq : ComparisonKernel .scalar .eq (fun row => row [97]) fun _ => 5),
      Partitions gt lt eq fun _ _ => 5 := by
  obtain ⟨⟨gt⟩, ⟨lt⟩, ⟨eq⟩⟩ := nonempty_withFive .scalar
  exact ⟨gt, lt, eq, (trichotomy_iff gt lt eq _).mpr (Or.inl rfl)⟩

/-- **Rows in none of the masks**: the bit-sliced kernels of `GT(a, 5)`, `LT(a, 5)` and
`EQ(a, 5)` all return zero on rows with `a = 5`. -/
theorem trichotomy_five : ¬ ∀ (mode : ExecutionMode) (u v : Graph.Row → Word)
    (gt : ComparisonKernel mode .gt u v) (lt : ComparisonKernel mode .lt u v)
    (eq : ComparisonKernel mode .eq u v) (rows : ℕ → Graph.Row), Partitions gt lt eq rows := by
  intro h
  obtain ⟨⟨gt⟩, ⟨lt⟩, ⟨eq⟩⟩ := nonempty_withFive .bitSliced
  obtain ⟨mgt, mlt, meq, -, -, heq, hlanes⟩ := h _ _ _ gt lt eq fun _ _ => 5
  have hset := (hlanes 0 (by omega)).2.mpr rfl
  rw [eq.kernel.returns_iff.mp heq, eq.mask_getLsbD _ (by omega)] at hset
  exact absurd hset (by decide)

end Jit
end ApexEngine
