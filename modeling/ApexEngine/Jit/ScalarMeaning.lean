import ApexEngine.Jit.ScalarRun
import ApexEngine.Jit.Threshold

/-!
# What a scalar kernel decides

On a well-typed expression the scalar kernel computes a word for each row that
depends on the fields of this row only: `Graph.scalarValue`, the evaluation in list
order from cleared registers.  The first listed node is then a leaf, so nothing is
inherited from the row before, and every operand that is read is done
(`Agree`).  The mask is the disjunction of these words, each shifted by its row
(`scalarMask_getLsbD`).

For the kinds of nodes that have code the word is one or zero as the expression is
true or false (`scalarValue_eq`), and the kernel is correct for every input, caller
and content of the scratchpad (`compileScalarExpression_correct`).
-/

namespace ApexEngine
namespace Jit

open A64 (Word)
open Scalar (RowState SameLeaves)

namespace Graph

variable (g : Graph) (row : Row)

/-- The leaves on a row. -/
def rowLeaf (n : NodeRef) : Word :=
  match g.kind n with
  | .load => row (g.node n).fieldName
  | _ => (g.node n).constValue

/-- The word a scalar kernel computes for a row. -/
def scalarValue (root : NodeRef) : Word :=
  (Scalar.evalRow g (g.rowLeaf row) root ⟨0, 0, 0, fun _ => 0⟩).res

end Graph

section Rows

variable {g : Graph} {root : NodeRef} {leaf leaf' : NodeRef → Word} {p q : List NodeRef}
  {s t : RowState} {n : NodeRef}

/-! ## Rows do not depend on one another -/

/-- Two evaluations that have the nodes of `p` done agree on them. -/
structure Agree (p : List NodeRef) (s t : RowState) : Prop where
  cell : ∀ n ∈ p, s.cell n = t.cell n
  res : p ≠ [] → s.res = t.res

/-- An operand whose cell is computed is fetched alike. -/
theorem Agree.fetch (h : Agree p s t) (hleaf : SameLeaves g root leaf leaf') {c : NodeRef}
    (hc : c ∈ g.listing root) (hcp : c ∈ p) (stale stale' : Word) :
    Scalar.fetch g leaf s.cell (some c) stale = Scalar.fetch g leaf' t.cell (some c) stale' := by
  by_cases hk : g.kind c = .load ∨ g.kind c = .const
  · rw [Scalar.fetch_leaf hk, Scalar.fetch_leaf hk, hleaf c hc hk]
  · rw [Scalar.fetch_inner hk, Scalar.fetch_inner hk, h.cell c hcp]

/-- **A typed node has the same result** in evaluations that agree on what is done. -/
theorem Agree.step (h : Agree p s t) (hw : g.WellTyped root)
    (hleaf : SameLeaves g root leaf leaf') (hsplit : g.listing root = p ++ n :: q) :
    Agree (p ++ [n]) (Scalar.evalNode g leaf s n) (Scalar.evalNode g leaf' t n) := by
  have hpost := g.postOrder_listing root
  rw [hsplit] at hpost
  have hn : n ∈ g.listing root := by
    rw [hsplit]
    simp
  have hleft : ∀ kind, (g.kind n).leftKind = some kind → p ≠ [] ∧
      Scalar.fetch g leaf s.cell (g.node n).left s.left =
        Scalar.fetch g leaf' t.cell (g.node n).left t.left := by
    intro kind hk
    obtain ⟨c, hc, hmem, -⟩ := hw.left hn hk
    have hcp := hpost.children_mem c (Node.mem_children.mpr (Or.inl hc))
    rw [hc]
    exact ⟨List.ne_nil_of_mem hcp, h.fetch hleaf hmem hcp _ _⟩
  have hright : ∀ kind, (g.kind n).rightKind = some kind →
      Scalar.fetch g leaf s.cell (g.node n).right s.right =
        Scalar.fetch g leaf' t.cell (g.node n).right t.right := by
    intro kind hk
    obtain ⟨c, hc, hmem, -⟩ := hw.right hn hk
    have hcp := hpost.children_mem c (Node.mem_children.mpr (Or.inr (Or.inl hc)))
    rw [hc]
    exact h.fetch hleaf hmem hcp _ _
  have hres : (Scalar.evalNode g leaf s n).res = (Scalar.evalNode g leaf' t n).res := by
    simp only [Scalar.evalNode, Scalar.result]
    cases hk : g.kind n with
    | load => exact hleaf n hn (Or.inl hk)
    | const => exact hleaf n hn (Or.inr hk)
    | add | sub | gt | lt | eq | and | or =>
      simp only [(hleft _ (by rw [hk]; rfl)).2, hright _ (by rw [hk]; rfl)]
    | not | select | lsl | lsr => exact h.res (hleft _ (by rw [hk]; rfl)).1
  refine ⟨fun m hm => ?_, fun _ => hres⟩
  by_cases hmn : m = n
  · subst hmn
    simp only [Scalar.evalNode, Function.update_self]
    exact hres
  · simp only [Scalar.evalNode, Function.update_of_ne hmn]
    exact h.cell m (by simpa [hmn] using hm)

theorem Agree.steps (hw : g.WellTyped root) (hleaf : SameLeaves g root leaf leaf')
    (hsplit : g.listing root = p ++ q) (h : Agree p s t) :
    Agree (p ++ q) (q.foldl (Scalar.evalNode g leaf) s) (q.foldl (Scalar.evalNode g leaf') t) := by
  induction q generalizing p s t with
  | nil =>
    rw [List.append_nil]
    exact h
  | cons n q ih =>
    have h' := ih (p := p ++ [n]) (by rw [hsplit]; simp) (h.step hw hleaf hsplit)
    rw [List.append_assoc] at h'
    exact h'

/-- **A row's word** is the same from any registers and any cells. -/
theorem evalRow_res (hw : g.WellTyped root) (hleaf : SameLeaves g root leaf leaf')
    (s t : RowState) :
    (Scalar.evalRow g leaf root s).res = (Scalar.evalRow g leaf' root t).res := by
  have h : Agree [] s t := ⟨fun n hn => absurd hn (by simp), fun hp => absurd rfl hp⟩
  exact (h.steps hw hleaf (List.nil_append _).symm).res (List.ne_nil_of_mem (g.root_mem_listing root))

/-! ## What the cells have -/

/-- The result register has what the node before has. -/
def Carried (p : List NodeRef) (s : RowState) : Prop :=
  ∀ p' m, p = p' ++ [m] → s.res = s.cell m

/-- **The induction rule of a row**: what each node brings about from what its operands
have, and the register from the node before, holds of every cell, whatever the row starts
from. -/
theorem evalRow_induction {C : NodeRef → Word → Prop}
    (hstep : ∀ {p n q s}, g.listing root = p ++ n :: q → (∀ m ∈ p, C m (s.cell m)) →
      Carried p s → C n (Scalar.evalNode g leaf s n).res) (s₀ : RowState) :
    ∀ m ∈ g.listing root, C m ((Scalar.evalRow g leaf root s₀).cell m) := by
  have hcells : ∀ q p s, g.listing root = p ++ q → (∀ m ∈ p, C m (s.cell m)) → Carried p s →
      ∀ m ∈ p ++ q, C m ((q.foldl (Scalar.evalNode g leaf) s).cell m) := by
    intro q
    induction q with
    | nil =>
      intro p s _ h _
      rw [List.append_nil]
      exact h
    | cons n q ih =>
      intro p s hsplit h hcarried
      have h' := ih (p ++ [n]) (Scalar.evalNode g leaf s n) (by rw [hsplit]; simp) ?_ ?_
      · rwa [List.append_assoc] at h'
      · intro m hm
        by_cases hmn : m = n
        · subst hmn
          have hnode := hstep hsplit h hcarried
          simp only [Scalar.evalNode, Function.update_self]
          exact hnode
        · simp only [Scalar.evalNode, Function.update_of_ne hmn]
          exact h m (by simpa [hmn] using hm)
      · intro p' m hlast
        obtain ⟨-, hmn⟩ := List.append_inj' hlast rfl
        obtain rfl : n = m := by simpa using hmn
        simp only [Scalar.evalNode, Function.update_self]
  refine hcells (g.listing root) [] s₀ (List.nil_append _).symm (fun m hm => absurd hm (by simp)) ?_
  intro p' m hlast
  exact absurd hlast (by simp)

/-- In particular of the word of the row. -/
theorem scalarValue_induction {row : Graph.Row} {C : NodeRef → Word → Prop}
    (hstep : ∀ {p n q s}, g.listing root = p ++ n :: q → (∀ m ∈ p, C m (s.cell m)) →
      Carried p s → C n (Scalar.evalNode g (g.rowLeaf row) s n).res) :
    C root (g.scalarValue row root) := by
  rw [Graph.scalarValue, ← Scalar.evalRow_cell_root]
  exact evalRow_induction hstep _ root (g.root_mem_listing root)

/-! ## The mask -/

/-- The leaves of the kernel are those of the rows. -/
theorem sameLeaves_scalarLeaf {ms : NodeMetas} {planes : Planes} {rows : ℕ → Graph.Row}
    (hp : Presents .scalar g root ms planes rows) {k : ℕ} (hk : k < 64) :
    SameLeaves g root (scalarLeaf g ms planes k) (g.rowLeaf (rows k)) := by
  rintro n hn (hkind | hkind)
  · obtain ⟨plane, hplane, hshow⟩ := hp n ((g.mem_loadNodes root).mpr ⟨hn, hkind⟩)
    simp only [scalarLeaf, Graph.rowLeaf, hkind, hplane, Option.map_some, Option.getD_some]
    exact hshow k hk
  · simp only [scalarLeaf, Graph.rowLeaf, hkind]

/-- The mask after some rows: the words of the rows, each shifted by its row. -/
theorem evalRows_words {leaf : ℕ → NodeRef → Word} (s : RowState) (k r : ℕ) :
    (Scalar.evalRows g root leaf s k).2.getLsbD r = true ↔
      ∃ j < k, ((Scalar.evalRow g (leaf j) root (Scalar.evalRows g root leaf s j).1).res
        <<< j).getLsbD r = true := by
  induction k with
  | zero => simp [Scalar.evalRows]
  | succ k ih =>
    rw [Scalar.evalRows]
    simp only [BitVec.getLsbD_or, Bool.or_eq_true]
    rw [ih]
    constructor
    · rintro (⟨j, hj, hbit⟩ | hbit)
      · exact ⟨j, by omega, hbit⟩
      · exact ⟨k, by omega, hbit⟩
    · rintro ⟨j, hj, hbit⟩
      rcases Nat.lt_succ_iff_lt_or_eq.mp hj with hj | rfl
      · exact Or.inl ⟨j, hj, hbit⟩
      · exact Or.inr hbit

/-- The words are those of the single rows. -/
theorem evalRows_getLsbD {leaf : ℕ → NodeRef → Word} {rows : ℕ → Graph.Row}
    (hw : g.WellTyped root) (hleaf : ∀ k < 64, SameLeaves g root (leaf k) (g.rowLeaf (rows k)))
    (s : RowState) {k : ℕ} (hk : k ≤ 64) (r : ℕ) :
    (Scalar.evalRows g root leaf s k).2.getLsbD r = true ↔
      ∃ j < k, (g.scalarValue (rows j) root <<< j).getLsbD r = true := by
  rw [evalRows_words]
  refine exists_congr fun j => and_congr_right fun hj => ?_
  rw [Graph.scalarValue, evalRow_res hw (hleaf j (by omega)) _ ⟨0, 0, 0, fun _ => 0⟩]

/-- **The mask of a well-typed expression**: the words of the rows, each shifted by its
row. -/
theorem scalarMask_getLsbD {leaf : ℕ → NodeRef → Word} {rows : ℕ → Graph.Row}
    (hw : g.WellTyped root) (hleaf : ∀ k < 64, SameLeaves g root (leaf k) (g.rowLeaf (rows k)))
    (left right res : Word) (r : ℕ) :
    (Scalar.mask g root leaf left right res).getLsbD r = true ↔
      ∃ j < 64, (g.scalarValue (rows j) root <<< j).getLsbD r = true :=
  evalRows_getLsbD hw hleaf _ le_rfl r

/-- A truth value shifted by a row is a bit of this row. -/
theorem ite_shiftLeft_getLsbD (b : Bool) {j r : ℕ} (hr : r < 64) :
    ((if b then (1 : Word) else 0) <<< j).getLsbD r = true ↔ r = j ∧ b = true := by
  rw [BitVec.getLsbD_shiftLeft]
  cases b with
  | false => simp
  | true =>
    rw [if_pos rfl, show (1 : Word) = 1#64 from rfl, BitVec.getLsbD_one]
    simp only [Bool.and_eq_true, decide_eq_true_iff, Bool.not_eq_true', decide_eq_false_iff_not,
      and_true]
    omega

/-- When the words are truth values, bit `r` is that of row `r`. -/
theorem exists_shiftLeft_iff {w : ℕ → Word} {b : ℕ → Bool}
    (hwb : ∀ j < 64, w j = if b j then 1 else 0) {r : ℕ} (hr : r < 64) :
    (∃ j < 64, (w j <<< j).getLsbD r = true) ↔ b r = true := by
  constructor
  · rintro ⟨j, hj, hbit⟩
    rw [hwb j hj, ite_shiftLeft_getLsbD _ hr] at hbit
    rw [hbit.1]
    exact hbit.2
  · intro hb
    refine ⟨r, hr, ?_⟩
    rw [hwb r hr, ite_shiftLeft_getLsbD _ hr]
    exact ⟨rfl, hb⟩

/-! ## Where it is the truth -/

section Truth

variable {row : Graph.Row}

/-- The kinds of nodes that have code. -/
def scalarKinds : List NodeKind := [.load, .const, .add, .sub, .gt, .lt, .eq, .and, .or]

/-- What the cell of a node should have. -/
def Graph.word (g : Graph) (row : Graph.Row) (n : NodeRef) : Word :=
  match (g.kind n).resultKind with
  | .bitplane => g.value row n
  | .bitmask => if g.truth row n then 1 else 0

theorem Graph.word_of_bitplane (hk : (g.kind n).resultKind = .bitplane) :
    g.word row n = g.value row n := by
  simp only [Graph.word, hk]

theorem Graph.word_of_bitmask (hk : (g.kind n).resultKind = .bitmask) :
    g.word row n = if g.truth row n then 1 else 0 := by
  simp only [Graph.word, hk]

theorem rowLeaf_eq_word (hk : g.kind n = .load ∨ g.kind n = .const) :
    g.rowLeaf row n = g.word row n := by
  have hplane : (g.kind n).resultKind = .bitplane := by rcases hk with hk | hk <;> rw [hk] <;> rfl
  rw [Graph.word_of_bitplane hplane, g.value_eq, Graph.valueStep]
  rcases hk with hk | hk <;> simp only [hk, Graph.rowLeaf]

/-- A finished operand is fetched as it should be. -/
theorem fetch_eq_word {cell : NodeRef → Word} (h : ∀ n ∈ p, cell n = g.word row n) {c : NodeRef}
    (hc : c ∈ p) (stale : Word) :
    Scalar.fetch g (g.rowLeaf row) cell (some c) stale = g.word row c := by
  by_cases hk : g.kind c = .load ∨ g.kind c = .const
  · rw [Scalar.fetch_leaf hk, rowLeaf_eq_word hk]
  · rw [Scalar.fetch_inner hk, h c hc]

/-- The result of a node with code, from operands that are as they should be. -/
theorem result_eq_word (hw : g.WellTyped root) (hn : n ∈ g.listing root)
    (hkinds : g.kind n ∈ scalarKinds) {left right : Word}
    (hl : ∀ c, (g.node n).left = some c → left = g.word row c)
    (hr : ∀ c, (g.node n).right = some c → right = g.word row c) (stale : Word) :
    Scalar.result g (g.rowLeaf row) n left right stale = g.word row n := by
  have hleft : ∀ kind, (g.kind n).leftKind = some kind → ∃ c, (g.node n).left = some c ∧
      (g.kind c).resultKind = kind ∧ left = g.word row c := by
    intro kind hk
    obtain ⟨c, hc, -, hck⟩ := hw.left hn hk
    exact ⟨c, hc, hck, hl c hc⟩
  have hright : ∀ kind, (g.kind n).rightKind = some kind → ∃ c, (g.node n).right = some c ∧
      (g.kind c).resultKind = kind ∧ right = g.word row c := by
    intro kind hk
    obtain ⟨c, hc, -, hck⟩ := hw.right hn hk
    exact ⟨c, hc, hck, hr c hc⟩
  simp only [Scalar.result]
  cases hk : g.kind n with
  | load => exact rowLeaf_eq_word (Or.inl hk)
  | const => exact rowLeaf_eq_word (Or.inr hk)
  | add | sub =>
    obtain ⟨l, hl, hlk, hlw⟩ := hleft _ (by rw [hk]; rfl)
    obtain ⟨r, hr, hrk, hrw⟩ := hright _ (by rw [hk]; rfl)
    rw [Graph.word_of_bitplane (by rw [hk]; rfl), g.value_eq, Graph.valueStep]
    simp only [hk, hlw, hrw, hl, hr, Option.map_some, Option.getD_some,
      Graph.word_of_bitplane hlk, Graph.word_of_bitplane hrk]
  | gt | lt | eq =>
    obtain ⟨l, hl, hlk, hlw⟩ := hleft _ (by rw [hk]; rfl)
    obtain ⟨r, hr, hrk, hrw⟩ := hright _ (by rw [hk]; rfl)
    rw [Graph.word_of_bitmask (by rw [hk]; rfl), g.truth_eq, Graph.truthStep]
    simp only [hk, hlw, hrw, hl, hr, Graph.operandValue, Option.map_some, Option.getD_some,
      Graph.word_of_bitplane hlk, Graph.word_of_bitplane hrk, decide_eq_true_iff]
  | and | or =>
    obtain ⟨l, hl, hlk, hlw⟩ := hleft _ (by rw [hk]; rfl)
    obtain ⟨r, hr, hrk, hrw⟩ := hright _ (by rw [hk]; rfl)
    rw [Graph.word_of_bitmask (by rw [hk]; rfl), g.truth_eq, Graph.truthStep]
    simp only [hk, hlw, hrw, hl, hr, Option.map_some, Option.getD_some,
      Graph.word_of_bitmask hlk, Graph.word_of_bitmask hrk]
    cases g.truth row l <;> cases g.truth row r <;> rfl
  | _ => exact absurd hkinds (by rw [hk]; decide)

/-- **Each kind of node with code computes what it should.** -/
theorem evalNode_res (hw : g.WellTyped root) (hover : g.Over root scalarKinds)
    (hsplit : g.listing root = p ++ n :: q) (h : ∀ m ∈ p, s.cell m = g.word row m) :
    (Scalar.evalNode g (g.rowLeaf row) s n).res = g.word row n := by
  have hpost := g.postOrder_listing root
  rw [hsplit] at hpost
  have hn : n ∈ g.listing root := by
    rw [hsplit]
    simp
  simp only [Scalar.evalNode]
  refine result_eq_word hw hn (hover n hn) (fun c hc => ?_) (fun c hc => ?_) _
  · rw [hc]
    exact fetch_eq_word h (hpost.children_mem c (Node.mem_children.mpr (Or.inl hc))) _
  · rw [hc]
    exact fetch_eq_word h (hpost.children_mem c (Node.mem_children.mpr (Or.inr (Or.inl hc)))) _

/-- **The word of a row is the truth value of the expression.** -/
theorem scalarValue_eq (hw : g.WellTyped root) (hover : g.Over root scalarKinds) :
    g.scalarValue row root = if g.truth row root then 1 else 0 := by
  rw [← Graph.word_of_bitmask hw.mask]
  exact scalarValue_induction (C := fun n w => w = g.word row n) fun hsplit h _ =>
    evalNode_res hw hover hsplit h

end Truth
end Rows

/-! ## Calls -/

section Call

variable {caller : Caller} {planes : Planes} {g : Graph} {root : NodeRef} {rows : ℕ → Graph.Row}

/-- What a scalar compilation gives to call. -/
theorem scalarCallable_of_compile {metas ms : NodeMetas} {code : List A64.Item}
    (h : compileScalarExpression g (some root) metas = (some code, ms))
    (hfields : (g.fieldNames root).length ≤ 8) (hnodes : (g.listing root).length ≤ 512)
    (hbound : ∀ n ∈ g.loadNodes root, (planes (ms n).fieldIdx.toNat).isSome) :
    code = g.scalarCode root ms ∧ ScalarCallable planes g root ms := by
  rw [compileScalarExpression_eq] at h
  obtain ⟨hcode, hms⟩ := Prod.mk.inj h
  subst hms
  refine ⟨(Option.some.inj hcode).symm, fun n hn => fieldIdx_scalarMetas metas hn, hfields,
    fun i hi => ?_, hnodes⟩
  obtain ⟨n, hn, hidx⟩ := exists_load_of_lt hi
  have hb := hbound n hn
  rwa [fieldIdx_scalarMetas metas hn, Int.toNat_natCast, hidx] at hb

/-- **A call of the kernel of a well-typed expression** on the values of 64 rows. -/
theorem callExpr_rows {ms : NodeMetas} (hw : g.WellTyped root)
    (hcall : ScalarCallable planes g root ms) (hp : Presents .scalar g root ms planes rows)
    (caller : Caller) (scratch : Scratch) :
    ∃ m S, caller.callExpr (g.scalarCode root ms) planes scratch = some (m, S) ∧
      ∀ r, m.getLsbD r = true ↔
        ∃ j < 64, (g.scalarValue (rows j) root <<< j).getLsbD r = true := by
  obtain ⟨S, hrun⟩ := callExpr_scalarCode caller scratch hcall
  exact ⟨_, S, hrun, fun r =>
    scalarMask_getLsbD hw (fun _ hk => sameLeaves_scalarLeaf hp hk) _ _ _ r⟩

/-- **The scalar compiler is correct** on the kinds of nodes it has code for: whatever
the rows, the content of the scratchpad and the caller, bit `r` of the mask tells
whether the expression is true on row `r`. -/
theorem compileScalarExpression_correct {metas ms : NodeMetas} {code : List A64.Item}
    (hcompile : compileScalarExpression g (some root) metas = (some code, ms))
    (hw : g.WellTyped root) (hover : g.Over root scalarKinds)
    (hfields : (g.fieldNames root).length ≤ 8) (hnodes : (g.listing root).length ≤ 512)
    (hp : Presents .scalar g root ms planes rows) (caller : Caller) (scratch : Scratch) :
    ∃ m S, caller.callExpr code planes scratch = some (m, S) ∧
      ∀ r < 64, m.getLsbD r = g.truth (rows r) root := by
  obtain ⟨rfl, hcall⟩ := scalarCallable_of_compile hcompile hfields hnodes hp.isSome
  obtain ⟨m, S, hrun, hm⟩ := callExpr_rows hw hcall hp caller scratch
  refine ⟨m, S, hrun, fun r hr => ?_⟩
  rw [Bool.eq_iff_iff, hm r]
  exact exists_shiftLeft_iff (fun j _ => scalarValue_eq hw hover) hr

/-- The kernel of `GT(Load("a"), Const(5))` on the rows with `a = 0, …, 63`. -/
theorem compileScalarExpression_correct_threshold :
    ∃ code ms m S, compileScalarExpression (thresholdGraph (.ofString [97]) 5) (some 2)
        (fun _ => {}) = (some code, ms) ∧
      (Caller.standard [] (by decide)).callExpr code
        (fun i => if i = 0 then some (BitVec.ofNat 64) else none) (fun _ => 0) = some (m, S) ∧
      ∀ r < 64, m.getLsbD r = decide (5 < r) := by
  have hcompile := compileScalarExpression_eq (thresholdGraph (.ofString [97]) 5) 2 fun _ => {}
  have hp : Presents .scalar (thresholdGraph (.ofString [97]) 5) 2
      (scalarMetas (thresholdGraph (.ofString [97]) 5) 2 fun _ => {})
      (fun i => if i = 0 then some (BitVec.ofNat 64) else none) fun r _ => BitVec.ofNat 64 r := by
    intro n hn
    rw [loadNodes_threshold] at hn
    rw [List.mem_singleton.mp hn]
    exact ⟨_, rfl, fun _ _ => rfl⟩
  obtain ⟨m, S, hrun, hm⟩ := compileScalarExpression_correct hcompile (wellTyped_threshold _ _)
    (over_threshold _ _ (by decide)) (by decide) (by decide) hp (Caller.standard [] (by decide))
    fun _ => 0
  refine ⟨_, _, m, S, hcompile, hrun, fun r hr => ?_⟩
  rw [hm r hr, truth_threshold, Bool.eq_iff_iff, decide_eq_true_iff, decide_eq_true_iff,
    BitVec.lt_def, BitVec.toNat_ofNat, Nat.mod_eq_of_lt (by omega)]
  exact Iff.rfl

end Call
end Jit
end ApexEngine
