import ApexEngine.Jit.Compiled

/-!
# Copies of an expression

An expression can be built twice, with the same sharing, and the copies then differ in where
their nodes are.  A compiler never looks at that: it compares nodes for equality, and what it
gives to a node (an index, a slot, a carry register, the address of planes) depends on where
the node stands in the list of the nodes, or on its content.  And it gives all of this anew in
every call, so what earlier calls have left in the nodes does not matter either.

So either compiler makes the same code of an expression and of a copy of it, instruction for
instruction, whatever the nodes of the two contain when it starts (`compile_copy`).  It reads
of a node only what its kind has a use for, so this is all that the copy has to agree on
(`Mirrors`).  The proof goes by the passes of the compilers.  The walk lists the nodes of a
copy in the same order (`listing_copy`), hence all lists of nodes are those of the original
renamed, the positions in them are the same, and the blocks emitted for a node are those for
its copy.
-/

namespace ApexEngine
namespace Jit

open A64 (Word Reg Item Instr)

/-- A node with its pointers renamed. -/
def Node.rename (φ : NodeRef → NodeRef) (x : Node) : Node :=
  { x with left := x.left.map φ, right := x.right.map φ, cond := x.cond.map φ }

/-- `φ` copies the expression at `root` into another graph: its nodes go to different nodes,
with the same content and with pointers to the copies. -/
structure Copies (g g' : Graph) (root : NodeRef) (φ : NodeRef → NodeRef) : Prop where
  inj : ∀ m n, g.Reach root m → g.Reach root n → φ m = φ n → m = n
  node : ∀ n, g.Reach root n → g'.node (φ n) = (g.node n).rename φ

/-- Every expression is a copy of itself. -/
theorem Copies.refl (g : Graph) (root : NodeRef) : Copies g g root id where
  inj _ _ _ _ h := h
  node n _ := by simp [Node.rename]

/-- What of a node its kind reads: every node has room for a name, a constant and a shift
amount, and where the kind has no use for them they are what was last stored there. -/
def Node.content (x : Node) : Node :=
  { x with
    fieldName := if x.kind = .load then x.fieldName else []
    constValue := if x.kind = .const then x.constValue else 0
    shiftAmount := if x.kind = .lsl ∨ x.kind = .lsr then x.shiftAmount else 0 }

/-- A copy up to what no kind reads. -/
structure Mirrors (g g' : Graph) (root : NodeRef) (φ : NodeRef → NodeRef) : Prop where
  inj : ∀ m n, g.Reach root m → g.Reach root n → φ m = φ n → m = n
  content : ∀ n, g.Reach root n → (g'.node (φ n)).content = (g.node n).content.rename φ

theorem Copies.mirrors {g g' : Graph} {root : NodeRef} {φ : NodeRef → NodeRef}
    (h : Copies g g' root φ) : Mirrors g g' root φ where
  inj := h.inj
  content n hn := by
    rw [h.node n hn]
    rfl

section Copies

variable {g g' : Graph} {root n : NodeRef} {φ : NodeRef → NodeRef}

namespace Mirrors

theorem kind (h : Mirrors g g' root φ) (hn : g.Reach root n) : g'.kind (φ n) = g.kind n := by
  have hkind := congrArg Node.kind (h.content n hn)
  exact hkind

theorem fieldName (h : Mirrors g g' root φ) (hn : g.Reach root n) (hk : g.kind n = .load) :
    (g'.node (φ n)).fieldName = (g.node n).fieldName := by
  have hname := congrArg Node.fieldName (h.content n hn)
  have hk' : (g'.node (φ n)).kind = .load := (h.kind hn).trans hk
  rw [Graph.kind] at hk
  simpa only [Node.content, Node.rename, hk, hk', if_true] using hname

theorem constValue (h : Mirrors g g' root φ) (hn : g.Reach root n) (hk : g.kind n = .const) :
    (g'.node (φ n)).constValue = (g.node n).constValue := by
  have hvalue := congrArg Node.constValue (h.content n hn)
  have hk' : (g'.node (φ n)).kind = .const := (h.kind hn).trans hk
  rw [Graph.kind] at hk
  simpa only [Node.content, Node.rename, hk, hk', if_true] using hvalue

theorem left (h : Mirrors g g' root φ) (hn : g.Reach root n) :
    (g'.node (φ n)).left = (g.node n).left.map φ :=
  congrArg Node.left (h.content n hn)

theorem right (h : Mirrors g g' root φ) (hn : g.Reach root n) :
    (g'.node (φ n)).right = (g.node n).right.map φ :=
  congrArg Node.right (h.content n hn)

theorem cond (h : Mirrors g g' root φ) (hn : g.Reach root n) :
    (g'.node (φ n)).cond = (g.node n).cond.map φ :=
  congrArg Node.cond (h.content n hn)

end Mirrors

theorem Graph.Reach.child (hn : g.Reach root n) {c : NodeRef} (hc : c ∈ (g.node n).children) :
    g.Reach root c := hn.tail hc

/-! ## Folds -/

/-- **A fold over a copy** is the fold, when the algebras correspond. -/
theorem fold_copy (h : Mirrors g g' root φ) {α β : Type} (f : α → β)
    {alg : NodeRef → Option α → Option α → Option α → α}
    {alg' : NodeRef → Option β → Option β → Option β → β}
    (halg : ∀ n, g.Reach root n → ∀ a b c,
      alg' (φ n) (a.map f) (b.map f) (c.map f) = f (alg n a b c)) (hn : g.Reach root n) :
    g'.fold alg' (φ n) = f (g.fold alg n) := by
  induction n using g.induction with
  | h n ih =>
    have hchild : ∀ o : Option NodeRef, (∀ c, o = some c → c ∈ (g.node n).children) →
        (o.map φ).map (g'.fold alg') = (o.map (g.fold alg)).map f := by
      intro o ho
      cases o with
      | none => rfl
      | some c => exact congrArg some (ih c (ho c rfl) (hn.child (ho c rfl)))
    rw [g'.fold_eq, g.fold_eq, h.left hn, h.right hn, h.cond hn,
      hchild _ fun c hc => Node.mem_children.mpr (Or.inl hc),
      hchild _ fun c hc => Node.mem_children.mpr (Or.inr (Or.inl hc)),
      hchild _ fun c hc => Node.mem_children.mpr (Or.inr (Or.inr hc)), halg n hn]

theorem getD_map_nil (o : Option (List NodeRef)) :
    (o.map (List.map φ)).getD [] = (o.getD []).map φ := by
  cases o <;> rfl

/-- The comparisons of a copy are the renamed ones. -/
theorem collectComparisons_copy (h : Mirrors g g' root φ) :
    collectComparisons g' (φ root) = (collectComparisons g root).map φ := by
  refine fold_copy h (List.map φ) (fun n hn a b c => ?_) .refl
  simp only [h.kind hn]
  cases g.kind n with
  | gt | lt | eq => rfl
  | and => rw [getD_map_nil, getD_map_nil, List.map_append]
  | _ => rfl

/-! ## The walk -/

/-- The children of a copy are copies. -/
theorem Mirrors.mem_children (h : Mirrors g g' root φ) {n c : NodeRef} (hn : g.Reach root n)
    (hc : c ∈ (g.node n).children) : φ c ∈ (g'.node (φ n)).children := by
  rw [Node.mem_children, h.left hn, h.right hn, h.cond hn]
  rcases Node.mem_children.mp hc with hc | hc | hc <;> simp [hc]

/-- A copy has been visited when the node has. -/
theorem Mirrors.mem_nodeMap_iff (h : Mirrors g g' root φ) {metas metas' : NodeMetas}
    {s s' : ExpressionAnalyzer} (hs : Analyzed g metas s) (hs' : Analyzed g' metas' s')
    (hall : s'.allNodes = s.allNodes.map φ) (hreach : ∀ m ∈ s.allNodes, g.Reach root m)
    {n : NodeRef} (hn : g.Reach root n) : φ n ∈ s'.nodeMap ↔ n ∈ s.nodeMap := by
  rw [hs'.mem_nodeMap, hs.mem_nodeMap, hall]
  refine ⟨fun hmem => ?_, List.mem_map_of_mem⟩
  obtain ⟨m, hm, heq⟩ := List.mem_map.mp hmem
  exact h.inj m n (hreach m hm) hn heq ▸ hm

open ExpressionAnalyzer in
/-- The walk over a copy lists the copies of what a walk from `s` to `t` lists, in the same
order. -/
def CopiesWalk (g g' : Graph) (root : NodeRef) (φ : NodeRef → NodeRef) (metas' : NodeMetas)
    (o : Option NodeRef) (s t : ExpressionAnalyzer) : Prop :=
  ∀ fuel s', Analyzed g' metas' s' → s'.allNodes = s.allNodes.map φ →
    (∀ m ∈ s.allNodes, g.Reach root m) →
    (∀ n, o = some n → g.Reach root n ∧ g'.rank (φ n) < fuel) →
    (analyzeAux g' fuel (o.map φ) s').allNodes = t.allNodes.map φ

open ExpressionAnalyzer in
/-- **The visit of a copy.**  The three walks over the children go in step. -/
theorem copiesWalk_visit (h : Mirrors g g' root φ) {metas metas' : NodeMetas}
    {s s₁ s₂ s₃ : ExpressionAnalyzer} (hv : Visiting g metas n s s₁ s₂ s₃)
    (hleft : CopiesWalk g g' root φ metas' (g.node n).left s s₁)
    (hright : CopiesWalk g g' root φ metas' (g.node n).right s₁ s₂)
    (hcond : CopiesWalk g g' root φ metas' (g.node n).cond s₂ s₃) :
    CopiesWalk g g' root φ metas' (some n) s (s₃.visit g n) := by
  intro fuel s' hs' hall hreach ho
  obtain ⟨hn, hfuel⟩ := ho n rfl
  obtain ⟨k, rfl⟩ : ∃ k, fuel = k + 1 := ⟨fuel - 1, by omega⟩
  have hvis : φ n ∉ s'.nodeMap := fun hmem =>
    hv.fresh ((hv.start.mem_nodeMap n).mp ((h.mem_nodeMap_iff hv.start hs' hall hreach hn).mp hmem))
  rw [Option.map_some, analyzeAux, if_neg hvis]
  -- one of the walks
  have hstep : ∀ {o : Option NodeRef} {s t s' : ExpressionAnalyzer},
      (∀ c, o = some c → c ∈ (g.node n).children) → Walked g o s t →
      CopiesWalk g g' root φ metas' o s t → Analyzed g' metas' s' →
      s'.allNodes = s.allNodes.map φ → (∀ m ∈ s.allNodes, g.Reach root m) →
      Analyzed g' metas' (analyzeAux g' k (o.map φ) s') ∧
        (analyzeAux g' k (o.map φ) s').allNodes = t.allNodes.map φ ∧
        ∀ m ∈ t.allNodes, g.Reach root m := by
    intro o s t s' ho hw hcopies hs' hall hreach
    have hrank : ∀ c, o = some c → g'.rank (φ c) < k := fun c hc => by
      have := g'.rank_lt (φ n) (φ c) (h.mem_children hn (ho c hc))
      omega
    refine ⟨(analyzeAux_spec hs' fun c' hc' => ?_).1, hcopies k s' hs' hall hreach fun c hc =>
      ⟨hn.child (ho c hc), hrank c hc⟩, fun m hm => ?_⟩
    · obtain ⟨c, hc, rfl⟩ := Option.map_eq_some_iff.mp hc'
      exact hrank c hc
    · rcases hw.reach m hm with hm | ⟨c, hc, hr⟩
      · exact hreach m hm
      · exact (hn.child (ho c hc)).trans hr
  obtain ⟨hs₁, hall₁, hreach₁⟩ := hstep (fun c hc => Node.mem_children.mpr (Or.inl hc)) hv.left
    hleft hs' hall hreach
  obtain ⟨hs₂, hall₂, hreach₂⟩ := hstep (fun c hc => Node.mem_children.mpr (Or.inr (Or.inl hc)))
    hv.right hright hs₁ hall₁ hreach₁
  obtain ⟨-, hall₃, -⟩ := hstep (fun c hc => Node.mem_children.mpr (Or.inr (Or.inr hc)))
    hv.cond hcond hs₂ hall₂ hreach₂
  rw [h.left hn, h.right hn, h.cond hn]
  simp only [visit, hall₃, List.map_append, List.map_singleton]

open ExpressionAnalyzer in
/-- **The walk lists copies in the order of the nodes.** -/
theorem analyzeAux_copy (h : Mirrors g g' root φ) {metas metas' : NodeMetas} {fuel : ℕ}
    {o : Option NodeRef} {s : ExpressionAnalyzer} (hs : Analyzed g metas s)
    (ho : ∀ n, o = some n → g.rank n < fuel) :
    CopiesWalk g g' root φ metas' o s (analyzeAux g fuel o s) := by
  refine analyzeAux_induction (P := CopiesWalk g g' root φ metas') ?_ ?_ (copiesWalk_visit h) hs ho
  · intro s fuel' s' _ hall _ _
    cases fuel' <;> exact hall
  · intro n s hs hn fuel' s' hs' hall hreach ho
    obtain ⟨hreachable, hfuel⟩ := ho n rfl
    obtain ⟨k, rfl⟩ : ∃ k, fuel' = k + 1 := ⟨fuel' - 1, by omega⟩
    have hvis : φ n ∈ s'.nodeMap :=
      (h.mem_nodeMap_iff hs hs' hall hreach hreachable).mpr ((hs.mem_nodeMap n).mpr hn)
    rw [Option.map_some, analyzeAux, if_pos hvis]
    exact hall

/-- **The nodes of a copy are the copies of the nodes**, in the same order. -/
theorem listing_copy (h : Mirrors g g' root φ) :
    g'.listing (φ root) = (g.listing root).map φ := by
  refine analyzeAux_copy (o := some root) h (Analyzed.init _) (fun n hn => ?_) _ _
    (Analyzed.init _) rfl (fun m hm => absurd hm List.not_mem_nil) fun n hn => ?_
  · rw [← Option.some.inj hn]
    exact Nat.lt_succ_self _
  · rw [← Option.some.inj hn]
    exact ⟨.refl, Nat.lt_succ_self _⟩

/-- So are its nodes of some kinds. -/
theorem filter_copy (h : Mirrors g g' root φ) (P : NodeKind → Bool) :
    (g'.listing (φ root)).filter (fun n => P (g'.kind n)) =
      ((g.listing root).filter fun n => P (g.kind n)).map φ := by
  rw [listing_copy h, List.filter_map]
  refine congrArg (List.map φ) (List.filter_congr fun n hn => ?_)
  exact congrArg P (h.kind ((g.mem_listing root).mp hn))

theorem loadNodes_copy (h : Mirrors g g' root φ) :
    g'.loadNodes (φ root) = (g.loadNodes root).map φ := filter_copy h (· == .load)

theorem constNodes_copy (h : Mirrors g g' root φ) :
    g'.constNodes (φ root) = (g.constNodes root).map φ := filter_copy h (· == .const)

theorem arithmeticNodes_copy (h : Mirrors g g' root φ) :
    g'.arithmeticNodes (φ root) = (g.arithmeticNodes root).map φ := filter_copy h (·.isArithmetic)

theorem adderNodes_copy (h : Mirrors g g' root φ) :
    g'.adderNodes (φ root) = (g.adderNodes root).map φ := by
  rw [Graph.adderNodes, Graph.adderNodes, adders, adders, arithmeticNodes_copy h, List.filter_map]
  refine congrArg (List.map φ) (List.filter_congr fun n hn => ?_)
  have hmem := ((g.mem_arithmeticNodes root).mp hn).1
  exact congrArg NodeKind.isAdder (h.kind ((g.mem_listing root).mp hmem))

/-! ## What is given out -/

/-- Renaming changes no position. -/
theorem idxOf_map_of_inj {l : List NodeRef} (hinj : ∀ m ∈ l, φ m = φ n → m = n) :
    (l.map φ).idxOf (φ n) = l.idxOf n := by
  induction l with
  | nil => rfl
  | cons m l ih =>
    rw [List.map_cons]
    by_cases hm : m = n
    · subst hm
      rw [List.idxOf_cons_self, List.idxOf_cons_self]
    · have hne : φ m ≠ φ n := fun heq => hm (hinj m List.mem_cons_self heq)
      rw [List.idxOf_cons_ne _ hne, List.idxOf_cons_ne _ hm,
        ih fun m' hm' => hinj m' (List.mem_cons_of_mem m hm')]

theorem distinctNames_copy (h : Mirrors g g' root φ) {ns : List NodeRef}
    (hns : ∀ n ∈ ns, g.Reach root n ∧ g.kind n = .load) (names : List Core.Name) :
    distinctNames g' names (ns.map φ) = distinctNames g names ns := by
  induction ns generalizing names with
  | nil => rfl
  | cons n ns ih =>
    have hadd : addName g' names (φ n) = addName g names n := by
      obtain ⟨hreach, hk⟩ := hns n List.mem_cons_self
      rw [addName, addName, h.fieldName hreach hk]
    rw [List.map_cons, distinctNames_cons, distinctNames_cons, hadd,
      ih fun m hm => hns m (List.mem_cons_of_mem n hm)]

/-- The fields of a copy have the same indices. -/
theorem fieldNames_copy (h : Mirrors g g' root φ) :
    g'.fieldNames (φ root) = g.fieldNames root := by
  rw [Graph.fieldNames, Graph.fieldNames, loadNodes_copy h]
  refine distinctNames_copy h (fun n hn => ?_) []
  obtain ⟨hmem, hk⟩ := (g.mem_loadNodes root).mp hn
  exact ⟨(g.mem_listing root).mp hmem, hk⟩

/-- The constants of a copy have the same planes. -/
theorem assignConsts_copy (h : Mirrors g g' root φ) (heap : ℕ → Word) {ns : List NodeRef}
    (hns : ∀ n ∈ ns, g.Reach root n ∧ g.kind n = .const) {k k' : NodeRef → Word}
    (hk : ∀ n, g.Reach root n → k' (φ n) = k n) (pool : ConstPool) (ms ms' : NodeMetas) :
    (∀ n, g.Reach root n → (assignConsts heap g' (ns.map φ) k' pool ms').1 (φ n) =
      (assignConsts heap g ns k pool ms).1 n) ∧
    (assignConsts heap g' (ns.map φ) k' pool ms').2.1 = (assignConsts heap g ns k pool ms).2.1 := by
  induction ns generalizing k k' pool ms ms' with
  | nil => exact ⟨hk, rfl⟩
  | cons m ns ih =>
    obtain ⟨hm, hkind⟩ := hns m List.mem_cons_self
    rw [List.map_cons, assignConsts, assignConsts, h.constValue hm hkind]
    refine ih (fun n hn => hns n (List.mem_cons_of_mem m hn)) (fun n hn => ?_) _ _ _
    by_cases heq : n = m
    · subst heq
      rw [Function.update_self, Function.update_self]
    · rw [Function.update_of_ne heq, Function.update_of_ne fun hφ => heq (h.inj n m hn hm hφ)]
      exact hk n hn

/-- The constants of an expression are reached from its root. -/
theorem constNodes_reach (hn : n ∈ g.constNodes root) : g.Reach root n ∧ g.kind n = .const := by
  obtain ⟨hmem, hk⟩ := (g.mem_constNodes root).mp hn
  exact ⟨(g.mem_listing root).mp hmem, hk⟩

theorem constBitPlanes_copy (h : Mirrors g g' root φ) (heap : ℕ → Word) (pool : ConstPool)
    (hn : g.Reach root n) :
    g'.constBitPlanes (φ root) heap pool (φ n) = g.constBitPlanes root heap pool n := by
  rw [Graph.constBitPlanes, Graph.constBitPlanes, constNodes_copy h]
  exact (assignConsts_copy h heap (fun _ => constNodes_reach) (fun _ _ => rfl) pool _ _).1 n hn

theorem constPool_copy (h : Mirrors g g' root φ) (heap : ℕ → Word) (pool : ConstPool) :
    g'.constPool (φ root) heap pool = g.constPool root heap pool := by
  rw [Graph.constPool, Graph.constPool, constNodes_copy h]
  exact (assignConsts_copy h heap (fun _ => constNodes_reach) (fun _ _ => rfl) pool _ _).2

/-! ## The bit-sliced code -/

/-- Nodes and their copies are given the same. -/
structure SameGiven (g : Graph) (root : NodeRef) (φ : NodeRef → NodeRef) (ms ms' : NodeMetas)
    (konst konst' : NodeRef → Word) : Prop where
  resultKind : ∀ n ∈ g.listing root, (ms n).resultKind = (g.kind n).resultKind ∧
    (ms' (φ n)).resultKind = (g.kind n).resultKind
  fieldIdx : ∀ n ∈ g.loadNodes root, (ms' (φ n)).fieldIdx = (ms n).fieldIdx
  slotId : ∀ n ∈ g.arithmeticNodes root, (ms' (φ n)).slotId = (ms n).slotId
  carryReg : ∀ n ∈ g.adderNodes root, (ms' (φ n)).carryReg = (ms n).carryReg
  konst : ∀ n ∈ g.constNodes root, konst' (φ n) = konst n

/-- **Two compilations give the same** to nodes and copies. -/
theorem sameGiven_of_allocated (h : Mirrors g g' root φ) {ms ms' : NodeMetas}
    {konst konst' : NodeRef → Word} {pool pool' : ConstPool} (ha : Allocated g root ms konst pool)
    (ha' : Allocated g' (φ root) ms' konst' pool')
    (hk : ∀ n ∈ g.constNodes root, konst' (φ n) = konst n) :
    SameGiven g root φ ms ms' konst konst' := by
  have hlisted : ∀ n ∈ g.listing root, φ n ∈ g'.listing (φ root) := fun n hn => by
    rw [listing_copy h]
    exact List.mem_map_of_mem hn
  have hreach : ∀ n ∈ g.listing root, g.Reach root n := fun n hn => (g.mem_listing root).mp hn
  refine ⟨fun n hn => ⟨ha.resultKind n hn, ?_⟩, fun n hn => ?_, fun n hn => ?_, fun n hn => ?_, hk⟩
  · rw [ha'.resultKind _ (hlisted n hn), h.kind (hreach n hn)]
  · obtain ⟨hmem, hkind⟩ := (g.mem_loadNodes root).mp hn
    rw [ha.fieldIdx n hmem hkind, ha'.fieldIdx _ (hlisted n hmem) ((h.kind (hreach n hmem)).trans hkind),
      fieldNames_copy h, h.fieldName (hreach n hmem) hkind]
  · have harith : ∀ m ∈ g.arithmeticNodes root, g.Reach root m := fun m hm =>
      hreach m ((g.mem_arithmeticNodes root).mp hm).1
    rw [ha.slotId n hn, ha'.slotId _ (arithmeticNodes_copy h ▸ List.mem_map_of_mem hn),
      arithmeticNodes_copy h, idxOf_map_of_inj fun m hm => h.inj m n (harith m hm) (harith n hn)]
  · have hadd : ∀ m ∈ g.adderNodes root, g.Reach root m := fun m hm =>
      hreach m ((g.mem_arithmeticNodes root).mp (mem_adders.mp hm).1).1
    rw [ha.carryReg n hn, ha'.carryReg _ (adderNodes_copy h ▸ List.mem_map_of_mem hn),
      adderNodes_copy h, idxOf_map_of_inj fun m hm => h.inj m n (hadd m hm) (hadd n hn)]

section Sliced

variable {ms ms' : NodeMetas} {konst konst' : NodeRef → Word}

/-- An operand of a copy has the same code in bit-sliced mode. -/
theorem getOperandAtBit_copy (h : Mirrors g g' root φ) (hs : SameGiven g root φ ms ms' konst konst')
    {operand : Option NodeRef} (hmem : ∀ n, operand = some n → n ∈ g.listing root) (out : Reg) :
    getOperandAtBit g' ms' konst' (operand.map φ) out = getOperandAtBit g ms konst operand out := by
  cases operand with
  | none => rfl
  | some n =>
    have hn := hmem n rfl
    simp only [getOperandAtBit, Option.map_some, h.kind ((g.mem_listing root).mp hn)]
    cases hkind : g.kind n with
    | load => simp only [hs.fieldIdx n ((g.mem_loadNodes root).mpr ⟨hn, hkind⟩)]
    | const => simp only [hs.konst n ((g.mem_constNodes root).mpr ⟨hn, hkind⟩)]
    | add | sub | lsl | lsr =>
      have harith := hs.slotId n ((g.mem_arithmeticNodes root).mpr ⟨hn, by rw [hkind]; rfl⟩)
      simp only [(hs.resultKind n hn).1, (hs.resultKind n hn).2, loadSlot, harith]
    | _ =>
      -- a mask has no planes
      have hmask : ¬ (g.kind n).resultKind = .bitplane := by rw [hkind]; decide
      simp only [(hs.resultKind n hn).1, (hs.resultKind n hn).2, hmask, false_and, if_false]

/-- The code for both operands of a listed node. -/
theorem operands_copy (h : Mirrors g g' root φ) (hs : SameGiven g root φ ms ms' konst konst')
    (hn : n ∈ g.listing root) (out : Reg) :
    getOperandAtBit g' ms' konst' (g'.node (φ n)).left out =
        getOperandAtBit g ms konst (g.node n).left out ∧
      getOperandAtBit g' ms' konst' (g'.node (φ n)).right out =
        getOperandAtBit g ms konst (g.node n).right out := by
  have hreach := (g.mem_listing root).mp hn
  have hclosed : ∀ c ∈ (g.node n).children, c ∈ g.listing root := fun c hc =>
    (g.postOrder_listing root).closed hn hc
  rw [h.left hreach, h.right hreach]
  exact ⟨getOperandAtBit_copy h hs (fun c hc => hclosed c (Node.mem_children.mpr (Or.inl hc))) out,
    getOperandAtBit_copy h hs
      (fun c hc => hclosed c (Node.mem_children.mpr (Or.inr (Or.inl hc)))) out⟩

/-- The code of an arithmetic node. -/
theorem arithmeticBlock_copy (h : Mirrors g g' root φ) (hs : SameGiven g root φ ms ms' konst konst')
    (hn : n ∈ g.arithmeticNodes root) :
    arithmeticBlock g' ms' konst' (φ n) = arithmeticBlock g ms konst n := by
  have hmem := ((g.mem_arithmeticNodes root).mp hn).1
  simp only [arithmeticBlock, h.kind ((g.mem_listing root).mp hmem)]
  split
  · rename_i hadd
    rw [(operands_copy h hs hmem _).1, (operands_copy h hs hmem _).2, storeResult, storeResult,
      hs.slotId n hn, hs.carryReg n (mem_adders.mpr ⟨hn, hadd⟩)]
  · rfl

/-- The initial carry of an arithmetic node; a shift has none. -/
theorem carryInit_copy (h : Mirrors g g' root φ) (hs : SameGiven g root φ ms ms' konst konst')
    (hn : n ∈ g.arithmeticNodes root) : carryInit g' ms' (φ n) = carryInit g ms n := by
  have hmem := ((g.mem_arithmeticNodes root).mp hn).1
  simp only [carryInit, h.kind ((g.mem_listing root).mp hmem)]
  cases hkind : g.kind n with
  | add | sub => simp only [hs.carryReg n (mem_adders.mpr ⟨hn, by rw [hkind]; rfl⟩)]
  | _ => simp only [ite_self]

/-- So has a comparison. -/
theorem comparisonBlockAt_copy (h : Mirrors g g' root φ)
    (hs : SameGiven g root φ ms ms' konst konst') (hn : n ∈ g.listing root) (i : ℕ) :
    comparisonBlockAt g' ms' konst' (φ n) i = comparisonBlockAt g ms konst n i := by
  simp only [comparisonBlockAt, h.kind ((g.mem_listing root).mp hn), (operands_copy h hs hn _).1,
    (operands_copy h hs hn _).2]

/-- **The bit-sliced code of a copy.** -/
theorem expressionCode_copy (h : Mirrors g g' root φ) (hs : SameGiven g root φ ms ms' konst konst') :
    g'.expressionCode (φ root) ms' konst' = g.expressionCode root ms konst := by
  have hcmp : ∀ n ∈ collectComparisons g root, n ∈ g.listing root := fun n hn =>
    (g.mem_listing root).mpr (mem_collectComparisons hn).1
  have hentry : phase1Entry g' ms' (g'.arithmeticNodes (φ root)) =
      phase1Entry g ms (g.arithmeticNodes root) := by
    rw [phase1Entry, phase1Entry, arithmeticNodes_copy h, List.flatMap_map,
      List.flatMap_congr fun n hn => carryInit_copy h hs hn]
  have hbody : phase1Body g' ms' konst' (g'.arithmeticNodes (φ root)) =
      phase1Body g ms konst (g.arithmeticNodes root) := by
    rw [phase1Body, phase1Body, arithmeticNodes_copy h, List.flatMap_map,
      List.flatMap_congr fun n hn => arithmeticBlock_copy h hs hn]
  have hcompare : phase2Body g' ms' konst' (collectComparisons g' (φ root)) =
      phase2Body g ms konst (collectComparisons g root) := by
    rw [phase2Body, phase2Body, collectComparisons_copy h, ← List.map_take, List.zipIdx_map,
      List.flatMap_map]
    refine congrArg (· ++ _) (List.flatMap_congr fun p hp => ?_)
    have hmem := List.mem_of_mem_take (List.fst_mem_of_mem_zipIdx hp)
    exact comparisonBlockAt_copy h hs (hcmp p.1 hmem) p.2
  rw [Graph.expressionCode, Graph.expressionCode, emitExpression, emitExpression, hentry, hbody,
    hcompare, collectComparisons_copy h, List.length_map]

end Sliced

/-! ## The scalar code -/

/-- The linear search finds a copy where it finds the node. -/
theorem opIdx_copy {l : List NodeRef} (hinj : ∀ m ∈ l, φ m = φ n → m = n) (i : ℕ) :
    opIdx (l.map φ) i (φ n) = opIdx l i n := by
  have hfind : ∀ l : List NodeRef, (∀ m ∈ l, φ m = φ n → m = n) →
      (l.map φ).findIdx? (· = φ n) = l.findIdx? (· = n) := by
    intro l hl
    induction l with
    | nil => rfl
    | cons m l ih =>
      have hdecide : decide (φ m = φ n) = decide (m = n) :=
        decide_eq_decide.mpr ⟨hl m List.mem_cons_self, fun heq => congrArg φ heq⟩
      rw [List.map_cons, List.findIdx?_cons, List.findIdx?_cons, hdecide,
        ih fun m' hm' => hl m' (List.mem_cons_of_mem m hm')]
  rw [opIdx, opIdx, ← List.map_take, hfind _ fun m hm => hinj m (List.mem_of_mem_take hm)]

section Scalar

variable {ms ms' : NodeMetas}

/-- An operand of a copy has the same code in scalar mode. -/
theorem getOperand_copy (h : Mirrors g g' root φ)
    (hfield : ∀ n ∈ g.loadNodes root, (ms' (φ n)).fieldIdx = (ms n).fieldIdx) (i : ℕ)
    {operand : Option NodeRef} (hmem : ∀ n, operand = some n → n ∈ g.listing root) (out : Reg) :
    getOperand g' ms' ((g.listing root).map φ) i (operand.map φ) out =
      getOperand g ms (g.listing root) i operand out := by
  cases operand with
  | none => rfl
  | some n =>
    have hn := hmem n rfl
    have hreach := (g.mem_listing root).mp hn
    simp only [getOperand, Option.map_some, h.kind hreach,
      opIdx_copy fun m hm => h.inj m n ((g.mem_listing root).mp hm) hreach]
    cases hkind : g.kind n with
    | load => simp only [hfield n ((g.mem_loadNodes root).mpr ⟨hn, hkind⟩)]
    | const => simp only [h.constValue hreach hkind]
    | _ => rfl

/-- So has a node. -/
theorem scalarBlock_copy (h : Mirrors g g' root φ)
    (hfield : ∀ n ∈ g.loadNodes root, (ms' (φ n)).fieldIdx = (ms n).fieldIdx)
    (hn : n ∈ g.listing root) (i : ℕ) :
    scalarBlock g' ms' ((g.listing root).map φ) (φ n) i =
      scalarBlock g ms (g.listing root) n i := by
  have hreach := (g.mem_listing root).mp hn
  have hclosed : ∀ c ∈ (g.node n).children, c ∈ g.listing root := fun c hc =>
    (g.postOrder_listing root).closed hn hc
  have hself : getOperand g' ms' ((g.listing root).map φ) i ((some n).map φ) .x5 =
      getOperand g ms (g.listing root) i (some n) .x5 :=
    getOperand_copy h hfield i (fun m hm => Option.some.inj hm ▸ hn) .x5
  rw [Option.map_some] at hself
  have hop : scalarOp g' ms' ((g.listing root).map φ) i (φ n) =
      scalarOp g ms (g.listing root) i n := by
    simp only [scalarOp, h.kind hreach, hself]
  rw [scalarBlock, scalarBlock, hop, h.left hreach, h.right hreach,
    getOperand_copy h hfield i fun c hc => hclosed c (Node.mem_children.mpr (Or.inl hc)),
    getOperand_copy h hfield i fun c hc => hclosed c (Node.mem_children.mpr (Or.inr (Or.inl hc)))]

/-- **The scalar code of a copy.** -/
theorem scalarCode_copy (h : Mirrors g g' root φ)
    (hfield : ∀ n ∈ g.loadNodes root, (ms' (φ n)).fieldIdx = (ms n).fieldIdx) :
    g'.scalarCode (φ root) ms' = g.scalarCode root ms := by
  have hbody : scalarBody g' ms' ((g.listing root).map φ) = scalarBody g ms (g.listing root) := by
    rw [scalarBody, scalarBody, List.zipIdx_map, List.flatMap_map]
    refine congrArg (· ++ _) (List.flatMap_congr fun p hp => ?_)
    exact scalarBlock_copy h hfield (List.fst_mem_of_mem_zipIdx hp) p.2
  rw [Graph.scalarCode, Graph.scalarCode, emitScalar, emitScalar, listing_copy h, hbody]

end Scalar

/-! ## Either compiler -/

/-- **What a compiler makes of a copy** is what it makes of the original, whatever is left in
the nodes: the same kernel, if any, and the same constant planes. -/
theorem compile_copy (h : Mirrors g g' root φ) (mode : ExecutionMode) (heap : ℕ → Word)
    (metas metas' : NodeMetas) (pool : ConstPool) :
    (compile mode heap g' (some (φ root)) ⟨metas', pool⟩).1 =
        (compile mode heap g (some root) ⟨metas, pool⟩).1 ∧
      ((compile mode heap g (some root) ⟨metas, pool⟩).1.isSome →
        (compile mode heap g' (some (φ root)) ⟨metas', pool⟩).2.pool =
          (compile mode heap g (some root) ⟨metas, pool⟩).2.pool) := by
  cases mode with
  | scalar =>
    rw [compile_scalar, compile_scalar]
    refine ⟨congrArg some (scalarCode_copy h fun n hn => ?_), fun _ => rfl⟩
    obtain ⟨hmem, hk⟩ := (g.mem_loadNodes root).mp hn
    rw [fieldIdx_scalarMetas _ hn, fieldIdx_scalarMetas _ (loadNodes_copy h ▸ List.mem_map_of_mem hn),
      fieldNames_copy h, h.fieldName ((g.mem_listing root).mp hmem) hk]
  | bitSliced =>
    have harith : (g'.arithmeticNodes (φ root)).length = (g.arithmeticNodes root).length := by
      rw [arithmeticNodes_copy h, List.length_map]
    by_cases hlimits : (g.fieldNames root).length ≤ 8 ∧ (g.arithmeticNodes root).length ≤ 8
    · obtain ⟨hfields, harith8⟩ := hlimits
      rw [compile, compile, compileExpression_eq heap g root _ hfields harith8,
        compileExpression_eq heap g' (φ root) _ (by rwa [fieldNames_copy h]) (by rwa [harith])]
      refine ⟨congrArg some ?_, fun _ => constPool_copy h heap pool⟩
      have ha := allocated_compiledMetas metas fun n hn => g.mem_constPool heap root pool hn
      have ha' := allocated_compiledMetas metas' fun n hn =>
        g'.mem_constPool heap (φ root) pool hn
      refine expressionCode_copy h (sameGiven_of_allocated h ha ha' fun n hn => ?_)
      exact constBitPlanes_copy h heap pool (constNodes_reach hn).1
    · have hnone := compileExpression_none heap g root ⟨metas, pool⟩ (by omega)
      have hnone' := compileExpression_none heap g' (φ root) ⟨metas', pool⟩
        (by rw [fieldNames_copy h, harith]; omega)
      rw [compile, compile, hnone, hnone']
      exact ⟨rfl, fun hsome => absurd hsome (by simp)⟩

/-- What a compiler accepts is accepted in a copy. -/
theorem accepts_copy (h : Mirrors g g' root φ) (mode : ExecutionMode) :
    Accepts g' mode (φ root) ↔ Accepts g mode root := by
  rw [Accepts, Accepts, fieldNames_copy h, arithmeticNodes_copy h, List.length_map]

end Copies
end Jit
end ApexEngine
