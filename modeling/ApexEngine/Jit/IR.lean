import ApexEngine.Core.Registry
import ApexEngine.Machine.A64
import Mathlib.Logic.Relation

/-!
# Expression graphs

An expression is a graph of `ir::Node`s that point to one another.  The content of
a node (its kind, what a leaf holds, its three child pointers) is fixed once it is
built; its metadata (slot, field index, carry register, result kind) is rewritten
by every compilation.  The two are kept apart: `Graph` is the content and
`NodeMetas` the metadata, threaded through the compilers.

A `Graph` carries a rank that decreases along every child pointer.  An acyclic
graph has one, and it is what the recursions of the compiler terminate on.  Nodes
are named by `NodeRef`s, which like pointers are only compared for equality.

`Graph.fold` is the one recursion over graphs: every reading of an expression in
this development (its value, its truth, what one of the compilers makes of it) is
a fold, and `Graph.fold_eq` is its equation.
-/

namespace ApexEngine
namespace Jit

open A64 (Word)
open Core (Name)

/-- `ir::NodeKind`. -/
inductive NodeKind where
  | load | const | add | sub | gt | lt | eq | and | or | not | select | lsl | lsr
  deriving DecidableEq, Repr

/-- `ir::ResultKind`. -/
inductive ResultKind where
  | bitplane | bitmask
  deriving DecidableEq, Repr

/-- The result kind `ExpressionAnalyzer::analyze` gives each node kind. -/
def NodeKind.resultKind : NodeKind → ResultKind
  | .load | .const | .add | .sub | .lsl | .lsr => .bitplane
  | .gt | .lt | .eq | .and | .or | .not | .select => .bitmask

/-- A pointer to a node. -/
abbrev NodeRef := ℕ

/-- The content of an `ir::Node`.  `fieldName` is the C string in the 64-byte
array, `constValue` the bits of the `int64_t`. -/
structure Node where
  kind : NodeKind
  fieldName : Name := []
  constValue : Word := 0
  shiftAmount : ℤ := 0
  left : Option NodeRef := none
  right : Option NodeRef := none
  cond : Option NodeRef := none
  deriving DecidableEq, Repr

/-- The non-null child pointers. -/
def Node.children (n : Node) : List NodeRef := n.left.toList ++ n.right.toList ++ n.cond.toList

theorem Node.mem_children {n : Node} {c : NodeRef} :
    c ∈ n.children ↔ n.left = some c ∨ n.right = some c ∨ n.cond = some c := by
  simp only [children, List.mem_append, Option.mem_toList, or_assoc]

/-- The metadata of an `ir::Node`, filled in by the compilers. -/
structure NodeMeta where
  resultKind : ResultKind := .bitplane
  slotId : ℤ := -1
  fieldIdx : ℤ := -1
  carryReg : ℤ := -1
  deriving DecidableEq, Repr

/-- The metadata of every node. -/
abbrev NodeMetas := NodeRef → NodeMeta

/-- An acyclic graph of nodes. -/
structure Graph where
  node : NodeRef → Node
  rank : NodeRef → ℕ
  /-- Child pointers lead to lower ranks. -/
  rank_lt : ∀ i, ∀ c ∈ (node i).children, rank c < rank i

namespace Graph

variable (g : Graph)

/-- The kind of a node. -/
def kind (i : NodeRef) : NodeKind := (g.node i).kind

theorem rank_left {i c : NodeRef} (h : (g.node i).left = some c) : g.rank c < g.rank i :=
  g.rank_lt i c (Node.mem_children.mpr (Or.inl h))

theorem rank_right {i c : NodeRef} (h : (g.node i).right = some c) : g.rank c < g.rank i :=
  g.rank_lt i c (Node.mem_children.mpr (Or.inr (Or.inl h)))

theorem rank_cond {i c : NodeRef} (h : (g.node i).cond = some c) : g.rank c < g.rank i :=
  g.rank_lt i c (Node.mem_children.mpr (Or.inr (Or.inr h)))

/-- Induction over an expression: children first. -/
theorem induction {P : NodeRef → Prop}
    (h : ∀ i, (∀ c ∈ (g.node i).children, P c) → P i) (i : NodeRef) : P i := by
  induction hr : g.rank i using Nat.strongRecOn generalizing i with
  | ind r ih =>
    subst hr
    exact h i fun c hc => ih (g.rank c) (g.rank_lt i c hc) c rfl

/-- One node points to another. -/
def Child (i c : NodeRef) : Prop := c ∈ (g.node i).children

/-- A node is reachable from another along child pointers. -/
def Reach : NodeRef → NodeRef → Prop := Relation.ReflTransGen g.Child

theorem rank_le_of_reach {i j : NodeRef} (h : g.Reach i j) : g.rank j ≤ g.rank i := by
  induction h with
  | refl => exact le_rfl
  | tail _ hc ih => exact Nat.le_trans (Nat.le_of_lt (g.rank_lt _ _ hc)) ih

/-! ## Folding -/

section Fold

variable {α : Type} (alg : NodeRef → Option α → Option α → Option α → α)

/-- The fold with a bound on the depth. -/
def foldAux : ℕ → NodeRef → α
  | 0, i => alg i none none none
  | fuel + 1, i =>
      alg i ((g.node i).left.map (foldAux fuel)) ((g.node i).right.map (foldAux fuel))
        ((g.node i).cond.map (foldAux fuel))

/-- Evaluate an expression bottom-up: a node from the results of its children. -/
def fold (i : NodeRef) : α := g.foldAux alg (g.rank i) i

variable {g}

/-- A rank-zero node is a leaf. -/
theorem children_eq_nil_of_rank {i : NodeRef} (h : g.rank i = 0) : (g.node i).children = [] := by
  cases hc : (g.node i).children with
  | nil => rfl
  | cons c cs =>
    have := g.rank_lt i c (by rw [hc]; exact List.mem_cons_self)
    omega

/-- Enough fuel is enough. -/
theorem foldAux_eq {fuel fuel' : ℕ} {i : NodeRef} (h : g.rank i ≤ fuel) (h' : g.rank i ≤ fuel') :
    g.foldAux alg fuel i = g.foldAux alg fuel' i := by
  induction fuel generalizing fuel' i with
  | zero =>
    have hnil := children_eq_nil_of_rank (Nat.le_zero.mp h)
    simp only [Node.children, List.append_eq_nil_iff, Option.toList_eq_nil_iff] at hnil
    cases fuel' with
    | zero => rfl
    | succ fuel' => simp [foldAux, hnil.1.1, hnil.1.2, hnil.2]
  | succ fuel ih =>
    cases fuel' with
    | zero =>
      have hnil := children_eq_nil_of_rank (Nat.le_zero.mp h')
      simp only [Node.children, List.append_eq_nil_iff, Option.toList_eq_nil_iff] at hnil
      simp [foldAux, hnil.1.1, hnil.1.2, hnil.2]
    | succ fuel' =>
      have hchild : ∀ o : Option NodeRef, (∀ c, o = some c → g.rank c < g.rank i) →
          o.map (g.foldAux alg fuel) = o.map (g.foldAux alg fuel') := by
        intro o ho
        cases o with
        | none => rfl
        | some c =>
          have := ho c rfl
          rw [Option.map_some, Option.map_some, @ih fuel' c (by omega) (by omega)]
      rw [foldAux, foldAux, hchild _ fun c hc => g.rank_left hc,
        hchild _ fun c hc => g.rank_right hc, hchild _ fun c hc => g.rank_cond hc]

/-- **A fold** applies its step to the folds of the children. -/
theorem fold_eq (i : NodeRef) :
    g.fold alg i =
      alg i ((g.node i).left.map (g.fold alg)) ((g.node i).right.map (g.fold alg))
        ((g.node i).cond.map (g.fold alg)) := by
  have hchild : ∀ o : Option NodeRef, (∀ c, o = some c → g.rank c < g.rank i) →
      o.map (g.foldAux alg (g.rank i)) = o.map (g.fold alg) := by
    intro o ho
    cases o with
    | none => rfl
    | some c => rw [Option.map_some, Option.map_some, fold, foldAux_eq alg (Nat.le_of_lt (ho c rfl)) le_rfl]
  rw [fold, foldAux_eq alg le_rfl (Nat.le_succ _), foldAux, hchild _ fun c hc => g.rank_left hc,
    hchild _ fun c hc => g.rank_right hc, hchild _ fun c hc => g.rank_cond hc]

end Fold
end Graph
end Jit
end ApexEngine
