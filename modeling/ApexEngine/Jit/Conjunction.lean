import ApexEngine.Jit.CompiledKernel
import ApexEngine.Jit.Sums

/-!
# Conjunctions of many comparisons

A conjunction is a tree of ANDs, and the bit-sliced compiler flattens it: it lists the
comparisons from left to right and gives the first three of them registers.  The loops
over the registers stop at three by themselves, so nothing refuses a fourth comparison.
It is left out.

The law that is expected of a conjunction is stated with kernels only.  The mask of the
tree is the conjunction of the masks that the comparisons have when they are compiled
alone, in whatever state of whatever thread (`SlicedKernel`).  It holds exactly when the
first three comparisons imply all others (`conjunction_iff`).
-/

namespace ApexEngine
namespace Jit

open A64 (Word)

/-! ## Kernels -/

/-- A bit-sliced kernel of an expression, with a thread that calls it. -/
structure SlicedKernel (g : Graph) (root : NodeRef) where
  heap : ℕ → Word
  st : CompileState
  code : List A64.Item
  st' : CompileState
  caller : Caller
  compiled : compileExpression heap g (some root) st = (some code, st')
  /-- The constants of the kernel are in the pool of the thread. -/
  pool : st'.pool ⊆ caller.pool

namespace SlicedKernel

variable {g : Graph} {root : NodeRef}

/-- Called on planes that show the rows, the kernel returns a mask. -/
def Returns (k : SlicedKernel g root) (rows : ℕ → Graph.Row) (m : Word) : Prop :=
  ∀ planes scratch, Presents .bitSliced g root k.st'.metas planes rows →
    Keeps g .bitSliced root k.st'.metas scratch →
    ∃ S, k.caller.callExpr k.code planes scratch = some (m, S)

/-- The mask of a kernel. -/
def mask (k : SlicedKernel g root) (rows : ℕ → Graph.Row) : Word :=
  Circuit.mask g (rowInputs g rows) root (k.caller.regs .x2) (k.caller.regs .x3)

/-- It is a kernel of the bit-sliced mode. -/
def toCompiled (k : SlicedKernel g root) : CompiledKernel .bitSliced g root where
  heap := k.heap
  st := k.st
  code := k.code
  st' := k.st'
  caller := k.caller
  compiled := k.compiled
  fits h := absurd h (by decide)
  pool := k.pool

/-- **There is one mask a kernel returns** on 64 rows. -/
theorem returns_iff (k : SlicedKernel g root) {rows : ℕ → Graph.Row} {m : Word} :
    k.Returns rows m ↔ m = k.mask rows := k.toCompiled.returns_iff

/-- An accepted expression has a kernel on a new thread, whose pool then has its constants. -/
theorem nonempty (vs : List Word) (hvs : vs.length ≤ 2 ^ 32)
    (hpool : (compileExpression standardHeap g (some root) ⟨fun _ => {}, []⟩).2.pool =
      standardPool vs) (haccepts : Accepts g .bitSliced root) :
    Nonempty (SlicedKernel g root) := by
  obtain ⟨k⟩ := CompiledKernel.nonempty_bitSliced vs hvs hpool haccepts
  exact ⟨⟨k.heap, k.st, k.code, k.st', k.caller, k.compiled, k.pool⟩⟩

end SlicedKernel

/-! ## Trees of ANDs -/

namespace Graph

variable (g : Graph)

/-- The operands of a tree of ANDs, from left to right. -/
def conjuncts : NodeRef → List NodeRef :=
  g.fold fun n left right _ =>
    match g.kind n with
    | .and => left.getD [] ++ right.getD []
    | _ => [n]

/-- A field or a constant. -/
def IsLeaf (n : NodeRef) : Prop := g.kind n = .load ∨ g.kind n = .const

/-- A tree of ANDs of comparisons of fields and constants.  Subtrees may be shared. -/
inductive AndTree : NodeRef → Prop where
  | comparison {n lesser greater : NodeRef} : g.Compares n lesser greater → g.IsLeaf lesser →
      g.IsLeaf greater → AndTree n
  | and {n left right : NodeRef} : g.kind n = .and → (g.node n).left = some left →
      (g.node n).right = some right → AndTree left → AndTree right → AndTree n

end Graph

section Conjuncts

variable {g : Graph} {root n lesser greater : NodeRef} {row : Graph.Row}

theorem conjuncts_of_and {left right : NodeRef} (hk : g.kind n = .and)
    (hl : (g.node n).left = some left) (hr : (g.node n).right = some right) :
    g.conjuncts n = g.conjuncts left ++ g.conjuncts right := by
  rw [Graph.conjuncts, g.fold_eq]
  simp only [hk, hl, hr, Option.map_some, Option.getD_some]

theorem conjuncts_of_ne_and (hk : g.kind n ≠ .and) : g.conjuncts n = [n] := by
  rw [Graph.conjuncts, g.fold_eq]
  cases hkind : g.kind n <;> first | rfl | exact absurd hkind hk

/-- **What the compiler collects**: the comparisons among the conjuncts. -/
theorem collectComparisons_eq (n : NodeRef) :
    collectComparisons g n = (g.conjuncts n).filter fun m => (g.kind m).isComparison := by
  induction n using g.induction with
  | h n ih =>
    have hchild : ∀ o : Option NodeRef, (∀ c, o = some c → c ∈ (g.node n).children) →
        ((o.map (collectComparisons g)).getD []) =
          ((o.map g.conjuncts).getD []).filter fun m => (g.kind m).isComparison := by
      intro o ho
      cases o with
      | none => rfl
      | some c => exact ih c (ho c rfl)
    rw [collectComparisons, g.fold_eq, Graph.conjuncts, g.fold_eq]
    cases hk : g.kind n with
    | and =>
      simp only [List.filter_append]
      rw [← Graph.conjuncts, ← hchild _ fun c hc => Node.mem_children.mpr (Or.inl hc),
        ← hchild _ fun c hc => Node.mem_children.mpr (Or.inr (Or.inl hc))]
      rfl
    | _ => simp [hk, NodeKind.isComparison]

theorem reach_of_mem_conjuncts {n : NodeRef} (hn : n ∈ g.conjuncts root) : g.Reach root n := by
  induction root using g.induction with
  | h m ih =>
    have hchild : ∀ o : Option NodeRef, (∀ c, o = some c → c ∈ (g.node m).children) →
        n ∈ (o.map g.conjuncts).getD [] → g.Reach m n := by
      intro o ho hmem
      cases o with
      | none => exact absurd hmem (by simp)
      | some c => exact .head (ho c rfl) (ih c (ho c rfl) hmem)
    by_cases hk : g.kind m = .and
    · rw [Graph.conjuncts, g.fold_eq] at hn
      simp only [hk] at hn
      rcases List.mem_append.mp hn with hn | hn
      · exact hchild _ (fun c hc => Node.mem_children.mpr (Or.inl hc)) hn
      · exact hchild _ (fun c hc => Node.mem_children.mpr (Or.inr (Or.inl hc))) hn
    · rw [conjuncts_of_ne_and hk, List.mem_singleton] at hn
      rw [hn]
      exact .refl

/-- **Every conjunct of an accepted expression is accepted by itself.** -/
theorem accepts_conjunct (h : Accepts g .bitSliced root) (hn : n ∈ g.conjuncts root) :
    Accepts g .bitSliced n := by
  have hsub : ∀ m ∈ g.listing n, m ∈ g.listing root := fun m hm =>
    (g.mem_listing root).mpr ((reach_of_mem_conjuncts hn).trans ((g.mem_listing n).mp hm))
  intro _
  obtain ⟨hfields, harith⟩ := h rfl
  constructor
  · refine le_trans ?_ hfields
    refine ((nodup_distinctNames List.nodup_nil _).subperm fun x hx => ?_).length_le
    rcases mem_distinctNames hx with hnil | ⟨m, hm, rfl⟩
    · exact absurd hnil (by simp)
    · obtain ⟨hmem, hk⟩ := (g.mem_loadNodes n).mp hm
      exact Graph.name_mem_fieldNames (hsub m hmem) hk
  · refine le_trans ?_ harith
    refine ((g.nodup_arithmeticNodes n).subperm fun m hm => ?_).length_le
    obtain ⟨hmem, hk⟩ := (g.mem_arithmeticNodes n).mp hm
    exact (g.mem_arithmeticNodes root).mpr ⟨hsub m hmem, hk⟩

theorem Graph.Compares.kind (h : g.Compares n lesser greater) :
    g.kind n = .gt ∨ g.kind n = .lt := by
  rcases h.operands with ⟨hk, -⟩ | ⟨hk, -⟩
  · exact Or.inl hk
  · exact Or.inr hk

theorem Graph.Compares.isComparison (h : g.Compares n lesser greater) :
    (g.kind n).isComparison = true := by
  rcases h.kind with hk | hk <;> rw [hk] <;> rfl

/-- The conjuncts of a tree of ANDs are comparisons. -/
theorem Graph.AndTree.of_mem_conjuncts (h : g.AndTree root) (hn : n ∈ g.conjuncts root) :
    ∃ lesser greater, g.Compares n lesser greater ∧ g.IsLeaf lesser ∧ g.IsLeaf greater := by
  induction h with
  | @comparison m lesser greater hcmp hl hg =>
    rw [conjuncts_of_ne_and (by rcases hcmp.kind with hk | hk <;> rw [hk] <;> decide)] at hn
    rw [List.mem_singleton.mp hn]
    exact ⟨lesser, greater, hcmp, hl, hg⟩
  | and hk hl hr _ _ ihl ihr =>
    rw [conjuncts_of_and hk hl hr] at hn
    exact (List.mem_append.mp hn).elim ihl ihr

/-- All of them are collected. -/
theorem Graph.AndTree.collectComparisons_eq (h : g.AndTree root) :
    collectComparisons g root = g.conjuncts root := by
  rw [Jit.collectComparisons_eq, List.filter_eq_self]
  intro n hn
  obtain ⟨lesser, greater, hcmp, -⟩ := h.of_mem_conjuncts hn
  exact hcmp.isComparison

/-- A field or a constant misses nothing. -/
theorem borrows_of_leaf (h : g.IsLeaf n) : g.borrows n = 0 :=
  borrows_of_not_adder (by rcases h with hk | hk <;> rw [hk] <;> rfl)

/-- **The mask of a tree of ANDs**: the first three conjuncts. -/
theorem Graph.AndTree.mask_getLsbD (h : g.AndTree root) (k : SlicedKernel g root)
    (rows : ℕ → Graph.Row) {r : ℕ} (hr : r < 64) :
    (k.mask rows).getLsbD r = ((g.conjuncts root).take 3).all (g.truth (rows r)) := by
  have hcompared : Circuit.compared g root = (g.conjuncts root).take 3 := by
    rw [Circuit.compared, h.collectComparisons_eq]
  rw [SlicedKernel.mask, Circuit.mask_getLsbD hr (values_sumIn g root)
    (ordered_adderNodes g root) (fun n hn hadd => mem_adderNodes.mpr ⟨hn.1, hadd⟩) ?_
    (rowInputs_sumIn g root rows hr), hcompared, Bool.eq_iff_iff, List.all_eq_true, List.all_eq_true]
  · refine forall₂_congr fun n hn => ?_
    obtain ⟨lesser, greater, hcmp, hl, hg⟩ := h.of_mem_conjuncts (List.mem_of_mem_take hn)
    rw [hcmp.verdict_eq_truth (borrows_of_leaf hl) (borrows_of_leaf hg)]
  · intro n hn
    have hmem := (g.mem_listing root).mpr (mem_collectComparisons (List.mem_of_mem_take hn)).1
    rw [hcompared] at hn
    obtain ⟨lesser, greater, hcmp, -⟩ := h.of_mem_conjuncts (List.mem_of_mem_take hn)
    exact hcmp.comparable hmem

end Conjuncts

/-! ## The law -/

/-- The conjunction of some masks. -/
def conjunctionOf (masks : List Word) : Word := masks.foldl (· &&& ·) (BitVec.allOnes 64)

theorem conjunctionOf_getLsbD (masks : List Word) {r : ℕ} (hr : r < 64) :
    (conjunctionOf masks).getLsbD r = masks.all fun m => m.getLsbD r := by
  have hfold : ∀ m : Word, (masks.foldl (· &&& ·) m).getLsbD r =
      (m.getLsbD r && masks.all fun m => m.getLsbD r) := by
    induction masks with
    | nil => simp
    | cons x xs ih =>
      intro m
      rw [List.foldl_cons, ih, BitVec.getLsbD_and, List.all_cons, Bool.and_assoc]
  rw [conjunctionOf, hfold, BitVec.getLsbD_allOnes, decide_eq_true hr, Bool.true_and]

section Law

variable {g : Graph} {root : NodeRef}

/-- On every 64 rows the mask of an expression is the conjunction of the masks its conjuncts
have alone. -/
def IsConjunction (whole : SlicedKernel g root)
    (alone : ∀ n, n ∈ g.conjuncts root → SlicedKernel g n) : Prop :=
  ∀ rows : ℕ → Graph.Row, ∃ m masks, whole.Returns rows m ∧
    (∀ n hn, (alone n hn).Returns rows (masks n)) ∧
    m = conjunctionOf ((g.conjuncts root).map masks)

/-- The mask of a comparison compiled alone. -/
theorem Graph.AndTree.alone_getLsbD (h : g.AndTree root) {n : NodeRef}
    (hn : n ∈ g.conjuncts root) (k : SlicedKernel g n) (rows : ℕ → Graph.Row) {r : ℕ}
    (hr : r < 64) : (k.mask rows).getLsbD r = g.truth (rows r) n := by
  obtain ⟨lesser, greater, hcmp, hl, hg⟩ := h.of_mem_conjuncts hn
  have hself : g.conjuncts n = [n] :=
    conjuncts_of_ne_and (by rcases hcmp.kind with hk | hk <;> rw [hk] <;> decide)
  rw [(Graph.AndTree.comparison hcmp hl hg).mask_getLsbD k rows hr, hself]
  simp

/-- A tree of ANDs has the mask it should have on 64 rows, if on each of them its first three
conjuncts imply the others. -/
theorem Graph.AndTree.mask_eq_iff (h : g.AndTree root) (whole : SlicedKernel g root)
    (alone : ∀ n, n ∈ g.conjuncts root → SlicedKernel g n) (rows : ℕ → Graph.Row) :
    (∃ m masks, whole.Returns rows m ∧ (∀ n hn, (alone n hn).Returns rows (masks n)) ∧
      m = conjunctionOf ((g.conjuncts root).map masks)) ↔
    ∀ r < 64, (∀ n ∈ (g.conjuncts root).take 3, g.truth (rows r) n = true) →
      ∀ n ∈ g.conjuncts root, g.truth (rows r) n = true := by
  -- a lane of the masks compiled alone is the truth of all conjuncts
  have hlane : ∀ masks : NodeRef → Word, (∀ n hn, masks n = (alone n hn).mask rows) → ∀ r < 64,
      (conjunctionOf ((g.conjuncts root).map masks)).getLsbD r =
        (g.conjuncts root).all (g.truth (rows r)) := by
    intro masks hmasks r hr
    rw [conjunctionOf_getLsbD _ hr, List.all_map, Bool.eq_iff_iff, List.all_eq_true,
      List.all_eq_true]
    refine forall₂_congr fun n hn => ?_
    rw [Function.comp_apply, hmasks n hn, h.alone_getLsbD hn _ rows hr]
  constructor
  · rintro ⟨m, masks, hm, hmasks, heq⟩ r hr hthree n hn
    have hwhole := h.mask_getLsbD whole rows hr
    rw [← whole.returns_iff.mp hm, heq,
      hlane masks (fun n hn => (alone n hn).returns_iff.mp (hmasks n hn)) r hr,
      List.all_eq_true.mpr hthree] at hwhole
    exact List.all_eq_true.mp hwhole n hn
  · intro himplies
    refine ⟨_, fun n => if hn : n ∈ g.conjuncts root then (alone n hn).mask rows else 0,
      whole.returns_iff.mpr rfl, fun n hn => (alone n hn).returns_iff.mpr (dif_pos hn), ?_⟩
    refine BitVec.eq_of_getLsbD_eq fun r hr => ?_
    rw [h.mask_getLsbD whole rows hr, hlane _ (fun n hn => dif_pos hn) r hr, Bool.eq_iff_iff,
      List.all_eq_true, List.all_eq_true]
    exact ⟨himplies r hr, fun hall n hn => hall n (List.mem_of_mem_take hn)⟩

/-- **Where no conjunct is ignored**: the mask of a tree of ANDs is the conjunction of its
conjuncts' masks exactly when its first three conjuncts imply the others on every row. -/
theorem conjunction_iff (h : g.AndTree root) (whole : SlicedKernel g root)
    (alone : ∀ n, n ∈ g.conjuncts root → SlicedKernel g n) :
    IsConjunction whole alone ↔
      ∀ row : Graph.Row, (∀ n ∈ (g.conjuncts root).take 3, g.truth row n = true) →
        ∀ n ∈ g.conjuncts root, g.truth row n = true := by
  constructor
  · exact fun hlaw row => (h.mask_eq_iff whole alone _).mp (hlaw fun _ => row) 0 (by omega)
  · exact fun himplies rows =>
      (h.mask_eq_iff whole alone rows).mpr fun r _ => himplies (rows r)

/-- The nodes of `AND(AND(AND(a > 5, b > 5), c > 5), d > 5)`: the constant, the fields, the
comparisons from node 5 and the conjunctions from node 9. -/
def aboveNode (i : ℕ) : Node :=
  if i = 0 then { kind := .const, constValue := 5 }
  else if i ≤ 4 then { kind := .load, fieldName := [96 + UInt8.ofNat i] }
  else if i ≤ 8 then { kind := .gt, left := some (i - 4), right := some 0 }
  else { kind := .and, left := some (if i = 9 then 5 else i - 1), right := some (i - 3) }

/-- The graph of these nodes.  The root is node 11. -/
def aboveGraph : Graph where
  node := aboveNode
  rank := id
  rank_lt i c hc := by
    unfold aboveNode at hc
    split_ifs at hc <;> simp [Node.children] at hc
    · rcases hc with rfl | rfl <;> simp only [id] <;> omega
    · rcases hc with rfl | rfl <;> simp only [id] <;> omega
    · rcases hc with rfl | rfl <;> simp only [id] <;> omega

theorem andTree_comparison_above {i : NodeRef} (h : 5 ≤ i ∧ i ≤ 8) : aboveGraph.AndTree i := by
  obtain ⟨h5, h8⟩ := h
  have hload : aboveGraph.kind (i - 4) = .load := by interval_cases i <;> rfl
  refine .comparison ⟨Or.inl ?_, .const (n := 0) rfl, .load hload⟩ (Or.inr rfl) (Or.inl hload)
  interval_cases i <;> decide

theorem andTree_above : aboveGraph.AndTree 9 ∧ aboveGraph.AndTree 11 := by
  have h := @andTree_comparison_above
  have h9 : aboveGraph.AndTree 9 := .and rfl rfl rfl (h ⟨by decide, by decide⟩)
    (h ⟨by decide, by decide⟩)
  exact ⟨h9, .and rfl rfl rfl (.and rfl rfl rfl h9 (h ⟨by decide, by decide⟩))
    (h ⟨by decide, by decide⟩)⟩

/-- There are kernels of these expressions. -/
theorem nonempty_comparison_above {i : NodeRef} (h : 5 ≤ i ∧ i ≤ 8) :
    Nonempty (SlicedKernel aboveGraph i) := by
  obtain ⟨h5, h8⟩ := h
  interval_cases i <;> exact SlicedKernel.nonempty [5] (by decide) rfl (by decide)

/-- The conjunction of the first two. -/
theorem conjunction_iff_two : ∃ (whole : SlicedKernel aboveGraph 9)
    (alone : ∀ n, n ∈ aboveGraph.conjuncts 9 → SlicedKernel aboveGraph n),
    IsConjunction whole alone := by
  obtain ⟨whole⟩ := @SlicedKernel.nonempty aboveGraph 9 [5] (by decide) rfl (by decide)
  have hne : ∀ n, n ∈ aboveGraph.conjuncts 9 → Nonempty (SlicedKernel aboveGraph n) := by
    intro n hn
    have hmem : n ∈ [5, 6] := hn
    simp only [List.mem_cons, List.not_mem_nil, or_false] at hmem
    rcases hmem with rfl | rfl <;> exact nonempty_comparison_above ⟨by decide, by decide⟩
  exact ⟨whole, fun n hn => (hne n hn).some,
    (conjunction_iff andTree_above.1 whole _).mpr fun row h n hn => h n hn⟩

/-- **A fourth comparison is ignored**: on rows with `a`, `b` and `c` above 5 and `d` not, the
kernel of the four comparisons returns all ones, and the comparison of `d` alone does not. -/
theorem conjunction_of_four : ¬ ∀ (g : Graph) (root : NodeRef) (whole : SlicedKernel g root)
    (alone : ∀ n, n ∈ g.conjuncts root → SlicedKernel g n),
    g.AndTree root → IsConjunction whole alone := by
  intro h
  obtain ⟨whole⟩ := @SlicedKernel.nonempty aboveGraph 11 [5] (by decide) rfl (by decide)
  have hne : ∀ n, n ∈ aboveGraph.conjuncts 11 → Nonempty (SlicedKernel aboveGraph n) := by
    intro n hn
    have hmem : n ∈ [5, 6, 7, 8] := hn
    simp only [List.mem_cons, List.not_mem_nil, or_false] at hmem
    rcases hmem with rfl | rfl | rfl | rfl <;>
      exact nonempty_comparison_above ⟨by decide, by decide⟩
  have hlaw := h aboveGraph 11 whole (fun n hn => (hne n hn).some) andTree_above.2
  have himplies := (andTree_above.2.mask_eq_iff whole _ _).mp
    (hlaw fun _ f => if f = [100] then 0 else 7) 0 (by omega)
  exact absurd (himplies (by decide) 8 (by decide)) (by decide)

end Law
end Jit
end ApexEngine
