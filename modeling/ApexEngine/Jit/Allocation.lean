import ApexEngine.Jit.Expression
import Mathlib.Data.Int.ConditionallyCompleteOrder
import Mathlib.Data.Set.Card

/-!
# What the analysis and the allocators promise

Both code generators rely on two things.  The analysis lists what is reachable from the
root, each node once and after its children (`Listed`).  And the three allocators, of field
indices, of slots and of carry registers, give different things different numbers, within
the sizes of what the numbers stand for (`AllocatedApart`).

A kernel is refused for one reason only: there are more than eight names of fields, or more
than eight nodes that take a slot.  Both numbers are counted here as sets are, with no
regard to the order in which the compiler meets them (`analysis_and_allocation`).

That a `Graph` carries a rank is no restriction.  A map of nodes is that of a graph exactly
when its child pointers are well-founded, that is, when no walk along them goes on for ever
(`exists_graph_iff`).
-/

namespace ApexEngine
namespace Jit

open A64 (Word Item)
open Core (Name)

/-! ## Acyclic graphs -/

section Acyclic

variable {node : NodeRef → Node}

/-- The height of a node over well-founded pointers: more than that of every child. -/
noncomputable def height (h : WellFounded fun c i => c ∈ (node i).children) : NodeRef → ℕ :=
  h.fix fun i below => ((node i).children.attach.map fun c => below c.1 c.2 + 1).foldr max 0

theorem height_lt (h : WellFounded fun c i => c ∈ (node i).children) {i c : NodeRef}
    (hc : c ∈ (node i).children) : height h c < height h i := by
  have hle : ∀ (l : List ℕ) x, x ∈ l → x ≤ l.foldr max 0 := by
    intro l x hx
    induction l with
    | nil => exact absurd hx (by simp)
    | cons y l ih =>
      rcases List.mem_cons.mp hx with rfl | hx
      · exact Nat.le_max_left _ _
      · exact (ih hx).trans (Nat.le_max_right _ _)
  have hmem : height h c + 1 ∈ (node i).children.attach.map fun c => height h c.1 + 1 :=
    List.mem_map.mpr ⟨⟨c, hc⟩, List.mem_attach _ _, rfl⟩
  have heq : height h i = ((node i).children.attach.map fun c => height h c.1 + 1).foldr max 0 :=
    h.fix_eq _ i
  rw [heq]
  exact hle _ _ hmem

/-- **The nodes of a graph are those whose pointers are well-founded.** -/
theorem exists_graph_iff : (∃ g : Graph, g.node = node) ↔
    WellFounded fun c i => c ∈ (node i).children := by
  constructor
  · rintro ⟨g, rfl⟩
    exact Subrelation.wf (fun {c i} hc => g.rank_lt i c hc) (InvImage.wf g.rank Nat.lt_wfRel.wf)
  · exact fun h => ⟨⟨node, height h, fun i c hc => height_lt h hc⟩, rfl⟩

end Acyclic

/-! ## The sets that are counted -/

namespace Graph

variable (g : Graph) (root : NodeRef)

/-- The names that the LOAD nodes of an expression have. -/
def loadNames : Set Name := {x | ∃ n, g.Reach root n ∧ g.kind n = .load ∧ (g.node n).fieldName = x}

/-- The LOAD nodes of an expression. -/
def loads : Set NodeRef := {n | g.Reach root n ∧ g.kind n = .load}

/-- The nodes of an expression that take a slot: ADD, SUB, LSL and LSR. -/
def slotNodes : Set NodeRef := {n | g.Reach root n ∧ (g.kind n).isArithmetic = true}

/-- The nodes of an expression that take a carry register: ADD and SUB. -/
def carryNodes : Set NodeRef := {n | g.Reach root n ∧ (g.kind n).isAdder = true}

variable {g root}

theorem mem_loads_iff {n : NodeRef} : n ∈ g.loads root ↔ n ∈ g.loadNodes root := by
  rw [g.mem_loadNodes root, g.mem_listing root]
  exact Iff.rfl

theorem mem_slotNodes_iff {n : NodeRef} : n ∈ g.slotNodes root ↔ n ∈ g.arithmeticNodes root := by
  rw [g.mem_arithmeticNodes root, g.mem_listing root]
  exact Iff.rfl

theorem mem_carryNodes_iff {n : NodeRef} : n ∈ g.carryNodes root ↔ n ∈ g.adderNodes root := by
  rw [adderNodes, mem_adders, ← mem_slotNodes_iff]
  constructor
  · rintro ⟨hreach, hadd⟩
    refine ⟨⟨hreach, ?_⟩, hadd⟩
    rcases NodeKind.isAdder_iff.mp hadd with hk | hk <;> rw [hk] <;> rfl
  · exact fun ⟨hslot, hadd⟩ => ⟨hslot.1, hadd⟩

theorem mem_loadNames_iff {x : Name} : x ∈ g.loadNames root ↔ x ∈ g.fieldNames root := by
  constructor
  · rintro ⟨n, hreach, hk, rfl⟩
    exact name_mem_fieldNames ((g.mem_listing root).mpr hreach) hk
  · intro hx
    rcases mem_distinctNames hx with hnil | ⟨n, hn, rfl⟩
    · exact absurd hnil (by simp)
    · obtain ⟨hreach, hk⟩ := mem_loads_iff.mpr hn
      exact ⟨n, hreach, hk, rfl⟩

theorem nodup_fieldNames (g : Graph) (root : NodeRef) : (g.fieldNames root).Nodup :=
  nodup_distinctNames List.nodup_nil _

/-- The list of the names has each name once. -/
theorem ncard_loadNames : (g.loadNames root).ncard = (g.fieldNames root).length := by
  have hset : g.loadNames root = ((g.fieldNames root).toFinset : Set Name) := by
    ext x
    rw [List.coe_toFinset]
    exact mem_loadNames_iff
  rw [hset, Set.ncard_coe_finset, List.toFinset_card_of_nodup (nodup_fieldNames g root)]

/-- The list of the arithmetic nodes has each node once. -/
theorem ncard_slotNodes : (g.slotNodes root).ncard = (g.arithmeticNodes root).length := by
  have hset : g.slotNodes root = ((g.arithmeticNodes root).toFinset : Set NodeRef) := by
    ext n
    rw [List.coe_toFinset]
    exact mem_slotNodes_iff
  rw [hset, Set.ncard_coe_finset, List.toFinset_card_of_nodup (g.nodup_arithmeticNodes root)]

end Graph

/-! ## The promises -/

/-- The nodes reachable from a root, each once and after its children. -/
structure Listed (g : Graph) (root : NodeRef) (allNodes : List NodeRef) : Prop where
  once : allNodes.Nodup
  reachable : ∀ n, n ∈ allNodes ↔ g.Reach root n
  childrenFirst : ∀ p n q, allNodes = p ++ n :: q → ∀ c ∈ (g.node n).children, c ∈ p

/-- Different nodes have different slots and carry registers, of eight each, and the LOAD
nodes are numbered by their names from zero on. -/
structure AllocatedApart (g : Graph) (root : NodeRef) (ms : NodeMetas) : Prop where
  slots : Set.MapsTo (fun n => (ms n).slotId) (g.slotNodes root) (Set.Icc 0 7)
  slotsApart : Set.InjOn (fun n => (ms n).slotId) (g.slotNodes root)
  carries : Set.MapsTo (fun n => (ms n).carryReg) (g.carryNodes root) (Set.Icc 0 7)
  carriesApart : Set.InjOn (fun n => (ms n).carryReg) (g.carryNodes root)
  fields : (fun n => (ms n).fieldIdx) '' g.loads root =
    Set.Ico 0 ((g.loadNames root).ncard : ℤ)
  fieldsApart : ∀ n ∈ g.loads root, ∀ m ∈ g.loads root,
    (ms n).fieldIdx = (ms m).fieldIdx ↔ (g.node n).fieldName = (g.node m).fieldName

section Promises

variable {g : Graph} {root : NodeRef} {ms : NodeMetas} {konst : NodeRef → Word} {pool : ConstPool}

theorem listed_analyze (g : Graph) (root : NodeRef) (metas : NodeMetas) :
    Listed g root (analyze g root metas).allNodes where
  once := (analyze_analyzed g root metas).postOrder.nodup
  reachable := mem_allNodes_iff g root metas
  childrenFirst p n q hsplit := by
    have hpost := (analyze_analyzed g root metas).postOrder
    rw [hsplit] at hpost
    exact hpost.children_mem

/-- Positions in a list of at most eight nodes are numbers of eight, and different ones. -/
theorem idxOf_apart {l : List NodeRef} (hlen : l.length ≤ 8) {f : NodeRef → ℤ}
    (hf : ∀ n ∈ l, f n = (l.idxOf n : ℕ)) :
    Set.MapsTo f {n | n ∈ l} (Set.Icc 0 7) ∧ Set.InjOn f {n | n ∈ l} := by
  constructor
  · intro n hn
    have hlt := List.idxOf_lt_length_of_mem hn
    rw [hf n hn, Set.mem_Icc]
    omega
  · intro n hn m hm heq
    rw [hf n hn, hf m hm, Int.natCast_inj] at heq
    exact (List.idxOf_inj hn).mp heq

/-- **What a compilation has allocated is apart.** -/
theorem Allocated.apart (h : Allocated g root ms konst pool)
    (harith : (g.arithmeticNodes root).length ≤ 8) : AllocatedApart g root ms := by
  have hslots := idxOf_apart harith h.slotId
  have hadders : (g.adderNodes root).length ≤ 8 := (List.length_filter_le _ _).trans harith
  have hcarries := idxOf_apart hadders h.carryReg
  have hslotSet : {n | n ∈ g.arithmeticNodes root} = g.slotNodes root :=
    Set.ext fun n => Graph.mem_slotNodes_iff.symm
  have hcarrySet : {n | n ∈ g.adderNodes root} = g.carryNodes root :=
    Set.ext fun n => Graph.mem_carryNodes_iff.symm
  have hfield : ∀ n ∈ g.loads root,
      (ms n).fieldIdx = ((g.fieldNames root).idxOf (g.node n).fieldName : ℕ) := fun n hn =>
    h.fieldIdx n ((g.mem_listing root).mpr hn.1) hn.2
  have hname : ∀ n ∈ g.loads root, (g.node n).fieldName ∈ g.fieldNames root := fun n hn =>
    Graph.name_mem_fieldNames ((g.mem_listing root).mpr hn.1) hn.2
  rw [hslotSet] at hslots
  rw [hcarrySet] at hcarries
  refine ⟨hslots.1, hslots.2, hcarries.1, hcarries.2, ?_, ?_⟩
  · rw [Graph.ncard_loadNames]
    ext i
    rw [Set.mem_image, Set.mem_Ico]
    constructor
    · rintro ⟨n, hn, rfl⟩
      have hlt := List.idxOf_lt_length_of_mem (hname n hn)
      simp only [hfield n hn]
      omega
    · rintro ⟨h0, hlt⟩
      obtain ⟨i, rfl⟩ := Int.eq_ofNat_of_zero_le h0
      obtain ⟨n, hn, hidx⟩ := exists_load_of_lt (Int.ofNat_lt.mp hlt)
      have hload := Graph.mem_loads_iff.mpr hn
      refine ⟨n, hload, ?_⟩
      simp only [hfield n hload, hidx]
  · intro n hn m hm
    rw [hfield n hn, hfield m hm, Int.natCast_inj]
    exact List.idxOf_inj (hname n hn)

end Promises

/-- **Analysis and allocation.**  The analysis of every root lists what is reachable,
children first.  There is a kernel exactly for a root with at most eight names of fields and
at most eight nodes that take a slot.  And the metadata of a kernel give different things
different numbers. -/
theorem analysis_and_allocation (heap : ℕ → Word) (g : Graph) (st : CompileState) :
    (∀ root, Listed g root (analyze g root st.metas).allNodes) ∧
    (∀ exprRoot, (compileExpression heap g exprRoot st).1.isSome ↔
      ∃ root, exprRoot = some root ∧ (g.loadNames root).ncard ≤ 8 ∧
        (g.slotNodes root).ncard ≤ 8) ∧
    ∀ root code st', compileExpression heap g (some root) st = (some code, st') →
      AllocatedApart g root st'.metas := by
  refine ⟨fun root => listed_analyze g root st.metas, fun exprRoot => ?_, ?_⟩
  · cases exprRoot with
    | none => exact ⟨fun h => absurd h (by simp [compileExpression]), fun ⟨_, h, _⟩ => absurd h (by simp)⟩
    | some root =>
      simp only [Option.some.injEq, exists_eq_left', Graph.ncard_loadNames, Graph.ncard_slotNodes]
      constructor
      · intro h
        cases hcompile : compileExpression heap g (some root) st with
        | mk code st' =>
          rw [hcompile] at h
          obtain ⟨code, rfl⟩ := Option.isSome_iff_exists.mp h
          exact limits_of_compileExpression heap g root st hcompile
      · rintro ⟨hfields, harith⟩
        rw [compileExpression_eq heap g root st hfields harith]
        rfl
  · intro root code st' hcompile
    obtain ⟨hfields, harith⟩ := limits_of_compileExpression heap g root st hcompile
    obtain ⟨konst, pool, hok, halloc⟩ := compileExpression_ok heap g root st hfields harith
    rw [hcompile] at hok
    obtain ⟨-, rfl⟩ := Prod.mk.inj hok
    exact halloc.apart harith

end Jit
end ApexEngine
