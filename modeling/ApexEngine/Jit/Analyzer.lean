import ApexEngine.Jit.IR
import Mathlib.Data.List.Induction

/-!
# `ExpressionAnalyzer`

The analysis pass walks the graph depth-first and lists every node after its
children.  The visited map is filled only after the recursive calls return, so
nothing in the code prevents a second visit of a node from below itself; that it
cannot happen is acyclicity, and enters the proof as `rank`: a walk from `n` lists
only nodes of rank at most that of `n`, so `n` is still unlisted when its children
are done.

`PostOrder` is the property of the list that both code generators rely on.  It is
built from the right, one node at a time: the node is new and its children are
already there.  `analyze_spec` collects what the analysis of a root gives.
-/

namespace ApexEngine
namespace Jit

open Core (Name)

/-- `ExpressionAnalyzer`, with the metadata of the nodes it writes through its
pointers. -/
structure ExpressionAnalyzer where
  nodeMap : AList fun _ : NodeRef => ℕ
  loadNodes : List NodeRef
  constNodes : List NodeRef
  arithmeticNodes : List NodeRef
  allNodes : List NodeRef
  metas : NodeMetas

namespace ExpressionAnalyzer

/-- A fresh analyzer over nodes with the given metadata. -/
def init (metas : NodeMetas) : ExpressionAnalyzer := ⟨∅, [], [], [], [], metas⟩

/-- The part of `analyze` after the recursive calls: list the node, set its result
kind, categorize it, mark it visited. -/
def visit (g : Graph) (s : ExpressionAnalyzer) (n : NodeRef) : ExpressionAnalyzer :=
  { nodeMap := s.nodeMap.insert n ((s.allNodes ++ [n]).length - 1)
    loadNodes := match g.kind n with
      | .load => s.loadNodes ++ [n]
      | _ => s.loadNodes
    constNodes := match g.kind n with
      | .const => s.constNodes ++ [n]
      | _ => s.constNodes
    arithmeticNodes := match g.kind n with
      | .add | .sub | .lsl | .lsr => s.arithmeticNodes ++ [n]
      | _ => s.arithmeticNodes
    allNodes := s.allNodes ++ [n]
    metas := Function.update s.metas n { s.metas n with resultKind := (g.kind n).resultKind } }

/-- `ExpressionAnalyzer::analyze`, with a bound on the depth of the recursion. -/
def analyzeAux (g : Graph) : ℕ → Option NodeRef → ExpressionAnalyzer → ExpressionAnalyzer
  | _, none, s => s
  | 0, some _, s => s
  | fuel + 1, some n, s =>
      if n ∈ s.nodeMap then s
      else
        let s := analyzeAux g fuel (g.node n).left s
        let s := analyzeAux g fuel (g.node n).right s
        let s := analyzeAux g fuel (g.node n).cond s
        visit g s n

end ExpressionAnalyzer

/-- `ExpressionAnalyzer::analyze` of a root.  The recursion goes no deeper than the
rank of the root. -/
def analyze (g : Graph) (root : NodeRef) (metas : NodeMetas) : ExpressionAnalyzer :=
  ExpressionAnalyzer.analyzeAux g (g.rank root + 1) (some root) (.init metas)

/-! ## Lists with children first -/

/-- Each node is listed once, after its children. -/
inductive PostOrder (g : Graph) : List NodeRef → Prop where
  | nil : PostOrder g []
  | snoc {l : List NodeRef} {n : NodeRef} : PostOrder g l → n ∉ l →
      (∀ c ∈ (g.node n).children, c ∈ l) → PostOrder g (l ++ [n])

namespace PostOrder

variable {g : Graph}

/-- The last step of a nonempty list. -/
theorem of_snoc {l : List NodeRef} {n : NodeRef} (h : PostOrder g (l ++ [n])) :
    PostOrder g l ∧ n ∉ l ∧ ∀ c ∈ (g.node n).children, c ∈ l := by
  generalize hm : l ++ [n] = m at h
  cases h with
  | nil => exact absurd hm (by simp)
  | @snoc l' n' hl' hn' hc' =>
    obtain ⟨rfl, hn⟩ := List.append_inj' hm rfl
    obtain rfl : n = n' := by simpa using hn
    exact ⟨hl', hn', hc'⟩

theorem nodup {l : List NodeRef} (h : PostOrder g l) : l.Nodup := by
  induction h with
  | nil => exact List.nodup_nil
  | snoc _ hn _ ih => exact ih.append (List.nodup_singleton _) (by simpa using hn)

/-- A prefix is again listed children first. -/
theorem of_append {l m : List NodeRef} (h : PostOrder g (l ++ m)) : PostOrder g l := by
  induction m using List.reverseRecOn with
  | nil => simpa using h
  | append_singleton m n ih =>
    rw [← List.append_assoc] at h
    exact ih h.of_snoc.1

/-- A node stands after its children. -/
theorem children_mem {p q : List NodeRef} {n : NodeRef} (h : PostOrder g (p ++ n :: q)) :
    ∀ c ∈ (g.node n).children, c ∈ p := by
  rw [show p ++ n :: q = p ++ [n] ++ q by simp] at h
  exact h.of_append.of_snoc.2.2

theorem notMem_left {p q : List NodeRef} {n : NodeRef} (h : PostOrder g (p ++ n :: q)) :
    n ∉ p := by
  rw [show p ++ n :: q = p ++ [n] ++ q by simp] at h
  exact h.of_append.of_snoc.2.1

/-- The list is closed under child pointers. -/
theorem closed {l : List NodeRef} (h : PostOrder g l) {n c : NodeRef} (hn : n ∈ l)
    (hc : c ∈ (g.node n).children) : c ∈ l := by
  obtain ⟨p, q, rfl⟩ := List.append_of_mem hn
  exact List.mem_append_left _ (h.children_mem c hc)

theorem mem_of_reach {l : List NodeRef} (h : PostOrder g l) {n m : NodeRef} (hn : n ∈ l)
    (hr : g.Reach n m) : m ∈ l := by
  induction hr with
  | refl => exact hn
  | tail _ hc ih => exact h.closed ih hc

/-- Among the nodes of some kind, those that are children of one stand before it. -/
theorem filter_split {l : List NodeRef} (h : PostOrder g l) {P : NodeRef → Bool}
    {p q : List NodeRef} {n : NodeRef} (hl : l.filter P = p ++ n :: q) :
    n ∉ p ∧ ∀ c ∈ (g.node n).children, c ∈ l ∧ (P c = true → c ∈ p) := by
  obtain ⟨l₁, l₂, rfl, rfl, hl₂⟩ := List.filter_eq_append_iff.mp hl
  obtain ⟨m₁, m₂, rfl, hm₁, -, -⟩ := List.filter_eq_cons_iff.mp hl₂
  rw [← List.append_assoc] at h
  have hchild := h.children_mem
  have hnot := h.notMem_left
  refine ⟨fun hmem => hnot (List.mem_append_left _ (List.mem_of_mem_filter hmem)), fun c hc => ?_⟩
  have hmem := hchild c hc
  refine ⟨by rw [← List.append_assoc]; exact List.mem_append_left _ hmem, fun hP => ?_⟩
  rcases List.mem_append.mp hmem with hmem | hmem
  · exact List.mem_filter.mpr ⟨hmem, hP⟩
  · exact absurd hP (hm₁ c hmem)

end PostOrder

/-! ## What the analysis gives -/

/-- The test behind `arithmetic_nodes`. -/
def NodeKind.isArithmetic : NodeKind → Bool
  | .add | .sub | .lsl | .lsr => true
  | _ => false

/-- The comparisons. -/
def NodeKind.isComparison : NodeKind → Bool
  | .gt | .lt | .eq => true
  | _ => false

/-- The state of an analysis: everything is determined by the list of all nodes. -/
structure Analyzed (g : Graph) (metas : NodeMetas) (s : ExpressionAnalyzer) : Prop where
  postOrder : PostOrder g s.allNodes
  mem_nodeMap : ∀ n, n ∈ s.nodeMap ↔ n ∈ s.allNodes
  loadNodes_eq : s.loadNodes = s.allNodes.filter fun n => g.kind n == .load
  constNodes_eq : s.constNodes = s.allNodes.filter fun n => g.kind n == .const
  arithmeticNodes_eq : s.arithmeticNodes = s.allNodes.filter fun n => (g.kind n).isArithmetic
  metas_eq : s.metas = fun n =>
    if n ∈ s.allNodes then { metas n with resultKind := (g.kind n).resultKind } else metas n

namespace Analyzed

variable {g : Graph} {metas : NodeMetas}

theorem init (metas : NodeMetas) : Analyzed g metas (.init metas) where
  postOrder := .nil
  mem_nodeMap n := by simp [ExpressionAnalyzer.init]
  loadNodes_eq := rfl
  constNodes_eq := rfl
  arithmeticNodes_eq := rfl
  metas_eq := by simp [ExpressionAnalyzer.init]

/-- Visiting a new node whose children are listed. -/
theorem visit {s : ExpressionAnalyzer} (h : Analyzed g metas s) {n : NodeRef}
    (hn : n ∉ s.allNodes) (hc : ∀ c ∈ (g.node n).children, c ∈ s.allNodes) :
    Analyzed g metas (s.visit g n) where
  postOrder := h.postOrder.snoc hn hc
  mem_nodeMap m := by
    simp only [ExpressionAnalyzer.visit, AList.mem_insert, h.mem_nodeMap, List.mem_append,
      List.mem_singleton]
    exact or_comm
  loadNodes_eq := by
    simp only [ExpressionAnalyzer.visit, h.loadNodes_eq, List.filter_append]
    cases hk : g.kind n <;> simp [hk]
  constNodes_eq := by
    simp only [ExpressionAnalyzer.visit, h.constNodes_eq, List.filter_append]
    cases hk : g.kind n <;> simp [hk]
  arithmeticNodes_eq := by
    simp only [ExpressionAnalyzer.visit, h.arithmeticNodes_eq, List.filter_append]
    cases hk : g.kind n <;> simp [hk, NodeKind.isArithmetic]
  metas_eq := by
    funext m
    simp only [ExpressionAnalyzer.visit, List.mem_append, List.mem_singleton]
    by_cases hm : m = n
    · subst hm
      simp [h.metas_eq, hn]
    · simp [hm, h.metas_eq]

end Analyzed

/-- What a walk from an optional node adds to an analysis. -/
structure Walked (g : Graph) (o : Option NodeRef) (s s' : ExpressionAnalyzer) : Prop where
  isPrefix : s.allNodes <+: s'.allNodes
  mem : ∀ n, o = some n → n ∈ s'.allNodes
  reach : ∀ m ∈ s'.allNodes, m ∈ s.allNodes ∨ ∃ n, o = some n ∧ g.Reach n m

namespace Walked

variable {g : Graph} {s s' s'' : ExpressionAnalyzer}

theorem none (s : ExpressionAnalyzer) : Walked g none s s where
  isPrefix := List.prefix_rfl
  mem n h := absurd h (by simp)
  reach m hm := Or.inl hm

/-- A node of higher rank than the start of a walk is not added by it. -/
theorem notMem_of_rank_lt {o : Option NodeRef} (h : Walked g o s s') {n : NodeRef}
    (hn : n ∉ s.allNodes) (ho : ∀ c, o = some c → g.rank c < g.rank n) : n ∉ s'.allNodes := by
  intro hmem
  rcases h.reach n hmem with hold | ⟨c, hc, hr⟩
  · exact hn hold
  · have := g.rank_le_of_reach hr
    have := ho c hc
    omega

section Visit

variable {n : NodeRef} {s₁ s₂ s₃ : ExpressionAnalyzer}

/-- Walking over the children lists them. -/
theorem children_mem (hw₁ : Walked g (g.node n).left s s₁) (hw₂ : Walked g (g.node n).right s₁ s₂)
    (hw₃ : Walked g (g.node n).cond s₂ s₃) : ∀ c ∈ (g.node n).children, c ∈ s₃.allNodes := by
  intro c hc
  rcases Node.mem_children.mp hc with h | h | h
  · exact hw₃.isPrefix.subset (hw₂.isPrefix.subset (hw₁.mem c h))
  · exact hw₃.isPrefix.subset (hw₂.mem c h)
  · exact hw₃.mem c h

/-- The node itself is not listed by walking over its children. -/
theorem notMem_of_children (hw₁ : Walked g (g.node n).left s s₁)
    (hw₂ : Walked g (g.node n).right s₁ s₂) (hw₃ : Walked g (g.node n).cond s₂ s₃)
    (hn : n ∉ s.allNodes) : n ∉ s₃.allNodes :=
  hw₃.notMem_of_rank_lt (hw₂.notMem_of_rank_lt (hw₁.notMem_of_rank_lt hn fun _ => g.rank_left)
    fun _ => g.rank_right) fun _ => g.rank_cond

/-- **A walk over the children and a visit** are a walk from the node. -/
theorem visit (hw₁ : Walked g (g.node n).left s s₁) (hw₂ : Walked g (g.node n).right s₁ s₂)
    (hw₃ : Walked g (g.node n).cond s₂ s₃) : Walked g (some n) s (s₃.visit g n) where
  isPrefix := ((hw₁.isPrefix.trans hw₂.isPrefix).trans hw₃.isPrefix).trans (List.prefix_append _ _)
  mem m hm := by
    rw [← Option.some.inj hm]
    simp [ExpressionAnalyzer.visit]
  reach m hm := by
    have hchild : ∀ c, c ∈ (g.node n).children → g.Reach c m →
        m ∈ s.allNodes ∨ ∃ k, some n = some k ∧ g.Reach k m :=
      fun c hc hr => Or.inr ⟨n, rfl, hr.head hc⟩
    rw [ExpressionAnalyzer.visit, List.mem_append, List.mem_singleton] at hm
    rcases hm with hm | rfl
    · rcases hw₃.reach m hm with hm | ⟨c, hc, hr⟩
      · rcases hw₂.reach m hm with hm | ⟨c, hc, hr⟩
        · rcases hw₁.reach m hm with hm | ⟨c, hc, hr⟩
          · exact Or.inl hm
          · exact hchild c (Node.mem_children.mpr (Or.inl hc)) hr
        · exact hchild c (Node.mem_children.mpr (Or.inr (Or.inl hc))) hr
      · exact hchild c (Node.mem_children.mpr (Or.inr (Or.inr hc))) hr
    · exact Or.inr ⟨m, rfl, .refl⟩

end Visit
end Walked

/-- **One call of `analyze`.**  It keeps the analysis consistent, lists its node and
adds only nodes reachable from it.  The induction is on the depth bound, which
stays above the rank of the node. -/
theorem analyzeAux_spec {g : Graph} {metas : NodeMetas} {fuel : ℕ} {o : Option NodeRef}
    {s : ExpressionAnalyzer} (hs : Analyzed g metas s) (ho : ∀ n, o = some n → g.rank n < fuel) :
    Analyzed g metas (ExpressionAnalyzer.analyzeAux g fuel o s) ∧
      Walked g o s (ExpressionAnalyzer.analyzeAux g fuel o s) := by
  induction fuel generalizing o s with
  | zero =>
    cases o with
    | none => simpa [ExpressionAnalyzer.analyzeAux] using ⟨hs, Walked.none s⟩
    | some n => exact absurd (ho n rfl) (by omega)
  | succ fuel ih =>
    cases o with
    | none => simpa [ExpressionAnalyzer.analyzeAux] using ⟨hs, Walked.none s⟩
    | some n =>
      rw [ExpressionAnalyzer.analyzeAux]
      by_cases hvis : n ∈ s.nodeMap
      · rw [if_pos hvis]
        refine ⟨hs, List.prefix_rfl, ?_, fun m hm => Or.inl hm⟩
        intro m hm
        rw [← Option.some.inj hm]
        exact (hs.mem_nodeMap n).mp hvis
      · rw [if_neg hvis]
        have hn : n ∉ s.allNodes := fun h => hvis ((hs.mem_nodeMap n).mpr h)
        have hrank := ho n rfl
        have hfuel : ∀ c, g.rank c < g.rank n → g.rank c < fuel := fun c hc => by omega
        obtain ⟨hs₁, hw₁⟩ := ih hs fun c (hc : (g.node n).left = some c) =>
          hfuel c (g.rank_left hc)
        obtain ⟨hs₂, hw₂⟩ := ih hs₁ fun c (hc : (g.node n).right = some c) =>
          hfuel c (g.rank_right hc)
        obtain ⟨hs₃, hw₃⟩ := ih hs₂ fun c (hc : (g.node n).cond = some c) =>
          hfuel c (g.rank_cond hc)
        -- the children are listed and the node itself is not, so it can be visited
        exact ⟨hs₃.visit (hw₁.notMem_of_children hw₂ hw₃ hn) (hw₁.children_mem hw₂ hw₃),
          hw₁.visit hw₂ hw₃⟩

/-- A node that has not been listed, and the walks over its children. -/
structure Visiting (g : Graph) (metas : NodeMetas) (n : NodeRef)
    (s s₁ s₂ s₃ : ExpressionAnalyzer) : Prop where
  start : Analyzed g metas s
  fresh : n ∉ s.allNodes
  left : Walked g (g.node n).left s s₁
  right : Walked g (g.node n).right s₁ s₂
  cond : Walked g (g.node n).cond s₂ s₃

/-- **Induction over a walk**: over nothing, from a node that is listed already, and from a new
node, over its children and then the node itself. -/
theorem analyzeAux_induction {g : Graph} {metas : NodeMetas}
    {P : Option NodeRef → ExpressionAnalyzer → ExpressionAnalyzer → Prop}
    (nothing : ∀ s, P none s s)
    (listed : ∀ {n s}, Analyzed g metas s → n ∈ s.allNodes → P (some n) s s)
    (new : ∀ {n s s₁ s₂ s₃}, Visiting g metas n s s₁ s₂ s₃ → P (g.node n).left s s₁ →
      P (g.node n).right s₁ s₂ → P (g.node n).cond s₂ s₃ → P (some n) s (s₃.visit g n))
    {fuel : ℕ} {o : Option NodeRef} {s : ExpressionAnalyzer} (hs : Analyzed g metas s)
    (ho : ∀ n, o = some n → g.rank n < fuel) :
    P o s (ExpressionAnalyzer.analyzeAux g fuel o s) := by
  induction fuel generalizing o s with
  | zero =>
    cases o with
    | none => exact nothing s
    | some n => exact absurd (ho n rfl) (Nat.not_lt_zero _)
  | succ fuel ih =>
    cases o with
    | none => exact nothing s
    | some n =>
      rw [ExpressionAnalyzer.analyzeAux]
      by_cases hvis : n ∈ s.nodeMap
      · rw [if_pos hvis]
        exact listed hs ((hs.mem_nodeMap n).mp hvis)
      · rw [if_neg hvis]
        have hrank := ho n rfl
        have hfuel : ∀ c, g.rank c < g.rank n → g.rank c < fuel := fun c hc => by omega
        have hl : ∀ c, (g.node n).left = some c → g.rank c < fuel :=
          fun c hc => hfuel c (g.rank_left hc)
        have hr : ∀ c, (g.node n).right = some c → g.rank c < fuel :=
          fun c hc => hfuel c (g.rank_right hc)
        have hc : ∀ c, (g.node n).cond = some c → g.rank c < fuel :=
          fun c hc => hfuel c (g.rank_cond hc)
        obtain ⟨hs₁, hw₁⟩ := analyzeAux_spec hs hl
        obtain ⟨hs₂, hw₂⟩ := analyzeAux_spec hs₁ hr
        obtain ⟨-, hw₃⟩ := analyzeAux_spec hs₂ hc
        have hfresh : n ∉ s.allNodes := fun h => hvis ((hs.mem_nodeMap n).mpr h)
        exact new ⟨hs, hfresh, hw₁, hw₂, hw₃⟩ (ih hs hl) (ih hs₁ hr) (ih hs₂ hc)

section Analyze

variable (g : Graph) (root : NodeRef) (metas : NodeMetas)

theorem analyze_spec :
    Analyzed g metas (analyze g root metas) ∧
      Walked g (some root) (.init metas) (analyze g root metas) :=
  analyzeAux_spec (Analyzed.init metas) fun n hn => by
    rw [← Option.some.inj hn]
    exact Nat.lt_succ_self _

theorem analyze_analyzed : Analyzed g metas (analyze g root metas) :=
  (analyze_spec g root metas).1

/-- **The list of all nodes is the reachable nodes.** -/
theorem mem_allNodes_iff (m : NodeRef) :
    m ∈ (analyze g root metas).allNodes ↔ g.Reach root m := by
  have hw := (analyze_spec g root metas).2
  constructor
  · intro hm
    rcases hw.reach m hm with hm | ⟨n, hn, hr⟩
    · exact absurd hm (by simp [ExpressionAnalyzer.init])
    · rwa [Option.some.inj hn]
  · exact fun hr => (analyze_analyzed g root metas).postOrder.mem_of_reach (hw.mem root rfl) hr

/-- The root is listed last. -/
theorem exists_allNodes_eq_snoc :
    ∃ l, (analyze g root metas).allNodes = l ++ [root] := by
  rw [analyze, ExpressionAnalyzer.analyzeAux,
    if_neg (by simp [ExpressionAnalyzer.init])]
  exact ⟨_, rfl⟩

end Analyze

/-! ## The listing of an expression -/

/-- The walk looks at no metadata. -/
theorem analyzeAux_congr (g : Graph) {fuel : ℕ} {o : Option NodeRef} {s s' : ExpressionAnalyzer}
    (hmap : s.nodeMap = s'.nodeMap) (hall : s.allNodes = s'.allNodes) :
    (ExpressionAnalyzer.analyzeAux g fuel o s).nodeMap =
        (ExpressionAnalyzer.analyzeAux g fuel o s').nodeMap ∧
      (ExpressionAnalyzer.analyzeAux g fuel o s).allNodes =
        (ExpressionAnalyzer.analyzeAux g fuel o s').allNodes := by
  induction fuel generalizing o s s' with
  | zero => cases o <;> exact ⟨hmap, hall⟩
  | succ fuel ih =>
    cases o with
    | none => exact ⟨hmap, hall⟩
    | some n =>
      rw [ExpressionAnalyzer.analyzeAux, ExpressionAnalyzer.analyzeAux, hmap]
      by_cases hvis : n ∈ s'.nodeMap
      · rw [if_pos hvis, if_pos hvis]
        exact ⟨hmap, hall⟩
      · rw [if_neg hvis, if_neg hvis]
        obtain ⟨hm₁, ha₁⟩ := @ih (g.node n).left s s' hmap hall
        obtain ⟨hm₂, ha₂⟩ := @ih (g.node n).right _ _ hm₁ ha₁
        obtain ⟨hm₃, ha₃⟩ := @ih (g.node n).cond _ _ hm₂ ha₂
        simp only [ExpressionAnalyzer.visit, hm₃, ha₃, and_self]

namespace Graph

variable (g : Graph) (root : NodeRef)

/-- The nodes of an expression in the order the compilers list them. -/
def listing : List NodeRef := (analyze g root fun _ => {}).allNodes

theorem allNodes_analyze (metas : NodeMetas) :
    (analyze g root metas).allNodes = g.listing root := by
  unfold listing analyze
  refine (analyzeAux_congr g ?_ ?_).2
  · rfl
  · rfl

theorem postOrder_listing : PostOrder g (g.listing root) :=
  (analyze_analyzed g root _).postOrder

theorem mem_listing {m : NodeRef} : m ∈ g.listing root ↔ g.Reach root m :=
  mem_allNodes_iff g root _ m

theorem root_mem_listing : root ∈ g.listing root := (g.mem_listing root).mpr .refl

theorem exists_listing_eq_snoc : ∃ l, g.listing root = l ++ [root] :=
  exists_allNodes_eq_snoc g root _

/-- The LOAD nodes in list order. -/
def loadNodes : List NodeRef := (g.listing root).filter fun n => g.kind n == .load

/-- The CONST nodes in list order. -/
def constNodes : List NodeRef := (g.listing root).filter fun n => g.kind n == .const

/-- The arithmetic nodes in list order. -/
def arithmeticNodes : List NodeRef := (g.listing root).filter fun n => (g.kind n).isArithmetic

theorem mem_loadNodes {n : NodeRef} :
    n ∈ g.loadNodes root ↔ n ∈ g.listing root ∧ g.kind n = .load := by
  rw [loadNodes, List.mem_filter, beq_iff_eq]

theorem mem_constNodes {n : NodeRef} :
    n ∈ g.constNodes root ↔ n ∈ g.listing root ∧ g.kind n = .const := by
  rw [constNodes, List.mem_filter, beq_iff_eq]

theorem mem_arithmeticNodes {n : NodeRef} :
    n ∈ g.arithmeticNodes root ↔ n ∈ g.listing root ∧ (g.kind n).isArithmetic = true :=
  List.mem_filter

theorem nodup_listing : (g.listing root).Nodup := (g.postOrder_listing root).nodup

theorem nodup_loadNodes : (g.loadNodes root).Nodup := (g.nodup_listing root).filter _

theorem nodup_constNodes : (g.constNodes root).Nodup := (g.nodup_listing root).filter _

theorem nodup_arithmeticNodes : (g.arithmeticNodes root).Nodup := (g.nodup_listing root).filter _

/-- What the analysis hands to the compilers. -/
theorem analyze_eq (metas : NodeMetas) :
    (analyze g root metas).loadNodes = g.loadNodes root ∧
      (analyze g root metas).constNodes = g.constNodes root ∧
      (analyze g root metas).arithmeticNodes = g.arithmeticNodes root ∧
      (analyze g root metas).metas = fun n =>
        if n ∈ g.listing root then { metas n with resultKind := (g.kind n).resultKind }
        else metas n := by
  have h := analyze_analyzed g root metas
  have hl := g.allNodes_analyze root metas
  rw [h.loadNodes_eq, h.constNodes_eq, h.arithmeticNodes_eq, h.metas_eq, hl]
  exact ⟨rfl, rfl, rfl, rfl⟩

end Graph
end Jit
end ApexEngine
