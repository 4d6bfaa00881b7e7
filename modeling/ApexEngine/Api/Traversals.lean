import ApexEngine.Api.Binding
import ApexEngine.Jit.BuilderRuns

/-!
# The recursions over an expression return

`analyze`, `collect_comparisons` and `collect_fields` follow child pointers and have no check
for cycles: `analyze` marks a node only after its children have returned, the two others mark
nothing.  Here they are written as they are, on a stack of bounded depth, and without a
result when the stack is used up (`Graph.walkWithin`).  A graph whose pointers lead to lower
ranks needs no more depth than the rank of its root, whatever the recursions have seen before
(`Graph.walkWithin_isSome`), and what they return are the lists and the slots that the
compilers and `set_expression` work with.

A builder's pool has this rank in the indices of its nodes, after any run
(`Session.wellFormed_run`).  `builder_graphs_wellFounded` puts the two together.
-/

namespace ApexEngine
namespace Jit

/-! ## Walking on a bounded stack -/

section Walk

variable {σ : Type} (skip : NodeRef → σ → Bool) (enter leave : NodeRef → σ → σ)
  (into : NodeRef → List (Option NodeRef))

/-- A recursion over the nodes: a null pointer and a node that is skipped return at once; at
another node something is done before and something after the recursive calls.  Without
depth for a call there is no result. -/
def walkWithin : ℕ → Option NodeRef → σ → Option σ
  | _, none, s => some s
  | 0, some _, _ => none
  | depth + 1, some n, s =>
      if skip n s then some s
      else ((into n).foldlM (fun s o => walkWithin depth o s) (enter n s)).map (leave n)

variable {skip enter leave into}

/-- **A walk along child pointers returns** on a stack deeper than the rank of its root.
What it returns is what satisfies the equation of the recursion. -/
theorem walkWithin_eq (g : Graph) (out : ℕ → Option NodeRef → σ → σ)
    (hinto : ∀ n c, some c ∈ into n → c ∈ (g.node n).children) (hnull : ∀ depth s, out depth none s = s)
    (hout : ∀ depth n s, out (depth + 1) (some n) s =
      if skip n s then s else leave n ((into n).foldl (fun s o => out depth o s) (enter n s)))
    {depth : ℕ} {o : Option NodeRef} (hdepth : ∀ n, o = some n → g.rank n < depth) (s : σ) :
    walkWithin skip enter leave into depth o s = some (out depth o s) := by
  induction depth generalizing o s with
  | zero =>
    cases o with
    | none => rw [hnull, walkWithin]
    | some n => exact absurd (hdepth n rfl) (Nat.not_lt_zero _)
  | succ depth ih =>
    cases o with
    | none => rw [hnull, walkWithin]
    | some n =>
      have hcalls : ∀ l : List (Option NodeRef), (∀ o ∈ l, o ∈ into n) → ∀ s : σ,
          l.foldlM (fun s o => walkWithin skip enter leave into depth o s) s =
            some (l.foldl (fun s o => out depth o s) s) := by
        intro l
        induction l with
        | nil => exact fun _ _ => rfl
        | cons o l ihl =>
          intro hl s
          have hcall : walkWithin skip enter leave into depth o s = some (out depth o s) := by
            refine ih (fun c hc => ?_) s
            have hrank := g.rank_lt n c (hinto n c (hc ▸ hl o List.mem_cons_self))
            exact hrank.trans_le (Nat.le_of_lt_succ (hdepth n rfl))
          rw [List.foldlM_cons, hcall, List.foldl_cons]
          exact ihl (fun o ho => hl o (List.mem_cons_of_mem _ ho)) _
      rw [walkWithin, hout]
      split
      · rfl
      · rw [hcalls (into n) (fun _ ho => ho), Option.map_some]

end Walk

namespace Graph

variable (g : Graph)

/-! ## The three recursions -/

/-- `ExpressionAnalyzer::analyze`. -/
def analyzeWithin : ℕ → Option NodeRef → ExpressionAnalyzer → Option ExpressionAnalyzer :=
  walkWithin (fun n s => decide (n ∈ s.nodeMap)) (fun _ s => s) (fun n s => s.visit g n)
    fun n => [(g.node n).left, (g.node n).right, (g.node n).cond]

/-- The lambda `collect_comparisons`. -/
def collectComparisonsWithin : ℕ → Option NodeRef → List NodeRef → Option (List NodeRef) :=
  walkWithin (fun _ _ => false)
    (fun n comparisonNodes => match g.kind n with
      | .gt | .lt | .eq => comparisonNodes ++ [n]
      | _ => comparisonNodes)
    (fun _ comparisonNodes => comparisonNodes)
    fun n => match g.kind n with
      | .and => [(g.node n).left, (g.node n).right]
      | _ => []

/-- The lambda `collect_fields`. -/
def collectFieldsWithin (schemaName : Core.Name) (registry : Core.SchemaRegistry) (ms : NodeMetas) :
    ℕ → Option NodeRef → Api.Slots → Option Api.Slots :=
  walkWithin (fun _ _ => false) (Api.bindNode schemaName registry g ms) (fun _ fields => fields)
    fun n => [(g.node n).left, (g.node n).right] ++
      if g.kind n = .select then [(g.node n).cond] else []

variable {g} {root : NodeRef} {depth : ℕ}

/-- **The analysis returns**, and with what the compilers start from. -/
theorem analyzeWithin_eq (hdepth : g.rank root < depth) (s : ExpressionAnalyzer) :
    g.analyzeWithin depth (some root) s =
      some (ExpressionAnalyzer.analyzeAux g depth (some root) s) := by
  refine walkWithin_eq g (ExpressionAnalyzer.analyzeAux g) (fun n c hc => ?_)
    (fun depth s => ?_) (fun depth n s => ?_) (fun n hn => ?_) s
  · simpa only [List.mem_cons, List.not_mem_nil, or_false, eq_comm, Node.mem_children] using hc
  · cases depth <;> rfl
  · rw [ExpressionAnalyzer.analyzeAux]
    simp only [decide_eq_true_eq]
    rfl
  · rw [← Option.some.inj hn]
    exact hdepth

/-- **The comparisons are collected.** -/
theorem collectComparisonsWithin_eq (hdepth : g.rank root < depth) (comparisonNodes : List NodeRef) :
    g.collectComparisonsWithin depth (some root) comparisonNodes =
      some (comparisonNodes ++ collectComparisons g root) := by
  refine walkWithin_eq g (fun _ o l => l ++ (o.map (collectComparisons g)).getD [])
    (fun n c hc => ?_) (fun depth s => ?_) (fun depth n s => ?_) (fun n hn => ?_) _
  · rw [Node.mem_children]
    split at hc
    · simp only [List.mem_cons, List.not_mem_nil, or_false] at hc
      exact hc.imp Eq.symm fun h => Or.inl h.symm
    · exact absurd hc List.not_mem_nil
  · exact List.append_nil s
  · have heq : collectComparisons g n = _ := g.fold_eq _ n
    rw [Option.map_some, Option.getD_some, heq]
    cases hk : g.kind n with
    | and =>
      simp only [Bool.false_eq_true, if_false, List.foldl_cons, List.foldl_nil, List.append_assoc]
      rfl
    | _ => simp
  · rw [← Option.some.inj hn]
    exact hdepth

/-- **The descriptors are collected.** -/
theorem collectFieldsWithin_eq {schemaName : Core.Name} {registry : Core.SchemaRegistry}
    {ms : NodeMetas} (hdepth : g.rank root < depth) (fields : Api.Slots) :
    g.collectFieldsWithin schemaName registry ms depth (some root) fields =
      some (Api.collectFields schemaName registry g ms root fields) := by
  refine walkWithin_eq g
    (fun _ o fields => (o.map (Api.collectFields schemaName registry g ms)).getD id fields)
    (fun n c hc => ?_) (fun depth s => rfl) (fun depth n s => ?_) (fun n hn => ?_) fields
  · rw [Node.mem_children]
    split at hc
    · simpa only [List.mem_append, List.mem_cons, List.not_mem_nil, or_false, eq_comm,
        or_assoc] using hc
    · simp only [List.append_nil, List.mem_cons, List.not_mem_nil, or_false] at hc
      exact hc.imp Eq.symm fun h => Or.inl h.symm
  · have heq : Api.collectFields schemaName registry g ms n = _ := g.fold_eq _ n
    rw [Option.map_some, Option.getD_some, heq]
    by_cases hk : g.kind n = .select <;> simp [hk, Api.collectFields]
  · rw [← Option.some.inj hn]
    exact hdepth

end Graph

/-! ## Roots from a builder -/

/-- A node with all the nodes below it: what the recursions do there on a stack as deep as
its index asks for. -/
structure Traversed (g : Graph) (root : NodeRef) : Prop where
  analyze : ∀ depth, root < depth → ∀ s, (g.analyzeWithin depth (some root) s).isSome
  collectComparisons : ∀ depth, root < depth → ∀ comparisonNodes,
    (g.collectComparisonsWithin depth (some root) comparisonNodes).isSome
  collectFields : ∀ depth, root < depth → ∀ schemaName registry ms fields,
    (g.collectFieldsWithin schemaName registry ms depth (some root) fields).isSome

/-- The nodes of an ordered pool are traversed, from any of them. -/
theorem NodePool.traversed {p : NodePool} (h : p.Ordered) (root : NodeRef) :
    Traversed (p.graph h) root where
  analyze depth hdepth s := by
    have hrank : (p.graph h).rank root < depth := hdepth
    rw [Graph.analyzeWithin_eq hrank]
    rfl
  collectComparisons depth hdepth comparisonNodes := by
    have hrank : (p.graph h).rank root < depth := hdepth
    rw [Graph.collectComparisonsWithin_eq hrank]
    rfl
  collectFields depth hdepth schemaName registry ms fields := by
    have hrank : (p.graph h).rank root < depth := hdepth
    rw [Graph.collectFieldsWithin_eq hrank]
    rfl

/-- **Builder graphs are well-founded.**  After any run of builder calls and resets, with
operands that are results since the last reset, every pointer in the pool leads to a node of
lower index, every node that was returned has the operands its kind asks for, and the
recursions return from each of these nodes. -/
theorem builder_graphs_wellFounded {calls : List BuilderCall} (h : Session.Run calls) :
    (∀ i < NodePool.maxNodes, ∀ c ∈ ((Session.run calls).pool.storage i).children, c < i) ∧
      (∀ n, some n ∈ (Session.run calls).results →
        n < NodePool.maxNodes ∧ ((Session.run calls).pool.storage n).Complete) ∧
      ∃ hord : (Session.run calls).pool.Ordered, ∀ root, some root ∈ (Session.run calls).results →
        Traversed ((Session.run calls).pool.graph hord) root := by
  have hwf := Session.wellFormed_run h
  refine ⟨fun i _ => hwf.ordered i, fun n hn => ⟨?_, hwf.complete n hn⟩, hwf.ordered, ?_⟩
  · exact (hwf.taken n hn).trans_le (Session.nextIdx_le calls)
  · exact fun root _ => NodePool.traversed hwf.ordered root

/-- A negation in a node that was a comparison before a reset: the pointer to the right
operand is still there. -/
theorem builder_graphs_wellFounded_reset :
    let calls := [.const 1, .const 2, .gt (some 0) (some 1), .reset, .const 3, .not (some 0),
      .not (some 1)]
    ((Session.run calls).pool.storage 2).children = [1, 1] ∧
      (∀ i < NodePool.maxNodes, ∀ c ∈ ((Session.run calls).pool.storage i).children, c < i) ∧
      (∀ n, some n ∈ (Session.run calls).results →
        n < NodePool.maxNodes ∧ ((Session.run calls).pool.storage n).Complete) ∧
      ∃ hord : (Session.run calls).pool.Ordered, ∀ root, some root ∈ (Session.run calls).results →
        Traversed ((Session.run calls).pool.graph hord) root :=
  ⟨by decide, builder_graphs_wellFounded (by simp only [Session.Run, Runs.Along]; decide)⟩

end Jit
end ApexEngine
