import ApexEngine.Jit.Emit
import ApexEngine.Jit.Expression

/-!
# `JitCompiler::compile_scalar_expression`

The scalar compiler emits one loop over the 64 rows.  Its body is straight-line code
that evaluates the listed nodes one after another, the `i`-th into cell `i` of the
scratchpad, and then shifts the value of the last one into the mask.

An operand is found in the list by a linear search, so a node used twice is computed
once.  Four kinds of nodes have no code of their own: for a negation, a selection or
a shift the result register is stored as the node before it left it.

There is no limit on the fields here, and none on the nodes: the scratchpad has room
for 512 of them and the code for more is emitted all the same.
-/

namespace ApexEngine
namespace Jit

open A64 (Word Reg Instr Item)

section Emit

variable (g : Graph) (ms : NodeMetas)

/-- The linear search for an operand among the first `i` nodes. -/
def opIdx (allNodes : List NodeRef) (i : ℕ) (operand : NodeRef) : ℕ :=
  ((allNodes.take i).findIdx? (· = operand)).getD 0

/-- The lambda `get_operand`, at node `i`. -/
def getOperand (allNodes : List NodeRef) (i : ℕ) (operand : Option NodeRef) (out : Reg) :
    List Instr :=
  match operand with
  | none => []
  | some n =>
      match g.kind n with
      | .load =>
          [.ldr .x4 (.offset .x0 (BitVec.ofInt 64 ((ms n).fieldIdx * 8))),
           .ldr out (.index .x4 .x20 3)]
      | .const => emitMovImm64 out (g.node n).constValue
      | _ => [.ldr out (.offset .x1 (BitVec.ofNat 64 (8 * opIdx allNodes i n)))]

/-- The code for the operation of a node. -/
def scalarOp (allNodes : List NodeRef) (i : ℕ) (n : NodeRef) : List Instr :=
  match g.kind n with
  | .load | .const => getOperand g ms allNodes i (some n) .x5
  | .add => [.bin .add .x5 .x2 (.reg .x3)]
  | .sub => [.bin .sub .x5 .x2 (.reg .x3)]
  | .gt => [.cmp .x2 (.reg .x3), .cset .x5 .hi]
  | .lt => [.cmp .x2 (.reg .x3), .cset .x5 .lo]
  | .eq => [.cmp .x2 (.reg .x3), .cset .x5 .eq]
  | .and => [.bin .and .x5 .x2 (.reg .x3)]
  | .or => [.bin .orr .x5 .x2 (.reg .x3)]
  | .not | .select | .lsl | .lsr => []

/-- The code for node `i` of the list. -/
def scalarBlock (allNodes : List NodeRef) (n : NodeRef) (i : ℕ) : List Instr :=
  getOperand g ms allNodes i (g.node n).left .x2 ++
  getOperand g ms allNodes i (g.node n).right .x3 ++
  scalarOp g ms allNodes i n ++
  [.str .x5 (.offset .x1 (BitVec.ofNat 64 (8 * i)))]

/-- Put the value of the root into the mask and go to the next row. -/
def scalarAccumulate : List Instr :=
  [.bin .lsl .x5 .x5 (.reg .x20),
   .bin .orr .x19 .x19 (.reg .x5),
   .bin .add .x20 .x20 (.imm 1)]

/-- The body of the row loop. -/
def scalarBody (allNodes : List NodeRef) : List Instr :=
  allNodes.zipIdx.flatMap (fun p => scalarBlock g ms allNodes p.1 p.2) ++ scalarAccumulate

def scalarPrologue : List Instr :=
  [.stp .x29 .x30 (.pre .sp (-16)),
   .mov .x29 (.reg .sp),
   .stp .x19 .x20 (.pre .sp (-16)),
   .mov .x19 (.imm 0),
   .mov .x20 (.imm 0)]

def scalarEpilogue : List Instr :=
  [.mov .x0 (.reg .x19),
   .ldp .x19 .x20 (.post .sp 16),
   .ldp .x29 .x30 (.post .sp 16)]

/-- The code that `compile_scalar_expression` emits. -/
def emitScalar (allNodes : List NodeRef) : List Item :=
  scalarPrologue.map .instr ++
  A64.loopItems 0 1 [.cmp .x20 (.imm 64)] .hs (scalarBody g ms allNodes) ++
  scalarEpilogue.map .instr ++
  [.ret .x30]

end Emit

/-- `JitCompiler::compile_scalar_expression`.  The loop that numbers the fields is that
of `compile_expression` without its limit. -/
def compileScalarExpression (g : Graph) (root : Option NodeRef) (metas : NodeMetas) :
    Option (List Item) × NodeMetas :=
  match root with
  | none => (none, metas)
  | some root =>
      let analyzer := analyze g root metas
      match assignFields g (fun _ => false) analyzer.loadNodes ∅ analyzer.metas with
      | .error ms => (none, ms)
      | .ok ms => (some (emitScalar g ms analyzer.allNodes), ms)

/-- The code for a root with given metadata. -/
def Graph.scalarCode (g : Graph) (root : NodeRef) (ms : NodeMetas) : List Item :=
  emitScalar g ms (g.listing root)

/-- The metadata after a scalar compilation. -/
def scalarMetas (g : Graph) (root : NodeRef) (metas : NodeMetas) : NodeMetas :=
  (metas.modifyAll (g.listing root) fun n x => { x with resultKind := (g.kind n).resultKind }
    ).modifyAll (g.loadNodes root) fun n x =>
      { x with fieldIdx := ((g.fieldNames root).idxOf (g.node n).fieldName : ℕ) }

/-- **There is always a scalar kernel**, and its fields are numbered by name. -/
theorem compileScalarExpression_eq (g : Graph) (root : NodeRef) (metas : NodeMetas) :
    compileScalarExpression g (some root) metas =
      (some (g.scalarCode root (scalarMetas g root metas)), scalarMetas g root metas) := by
  obtain ⟨hload, -, -, hmetas⟩ := g.analyze_eq root metas
  have hmetas' : (analyze g root metas).metas = metas.modifyAll (g.listing root)
      fun n x => { x with resultKind := (g.kind n).resultKind } := hmetas
  have hf := assignFields_ok (g := g) (fun _ => false)
    (metas.modifyAll (g.listing root) fun n x => { x with resultKind := (g.kind n).resultKind })
    Numbering.empty (g.nodup_loadNodes root) fun _ _ => rfl
  simp only [compileScalarExpression, hload, hmetas', hf, g.allNodes_analyze root metas]
  rfl

theorem fieldIdx_scalarMetas {g : Graph} {root n : NodeRef} (metas : NodeMetas)
    (hn : n ∈ g.loadNodes root) :
    (scalarMetas g root metas n).fieldIdx =
      ((g.fieldNames root).idxOf (g.node n).fieldName : ℕ) := by
  simp only [scalarMetas, NodeMetas.modifyAll, hn, if_true]

/-! ## Evaluation in list order -/

namespace Scalar

/-- What the row loop works on: the operand registers, the result register and the
cells of the nodes. -/
structure RowState where
  left : Word
  right : Word
  res : Word
  cell : NodeRef → Word

section Eval

variable (g : Graph) (leaf : NodeRef → Word)

/-- An operand; without one the register keeps what it has. -/
def fetch (cell : NodeRef → Word) (operand : Option NodeRef) (stale : Word) : Word :=
  match operand with
  | none => stale
  | some n =>
      match g.kind n with
      | .load | .const => leaf n
      | _ => cell n

/-- The result of a node; the kinds without code keep the one before. -/
def result (n : NodeRef) (left right stale : Word) : Word :=
  match g.kind n with
  | .load | .const => leaf n
  | .add => left + right
  | .sub => left - right
  | .gt => if right < left then 1 else 0
  | .lt => if left < right then 1 else 0
  | .eq => if left = right then 1 else 0
  | .and => left &&& right
  | .or => left ||| right
  | .not | .select | .lsl | .lsr => stale

/-- What the code of a node computes in a row. -/
def evalNode (s : RowState) (n : NodeRef) : RowState :=
  let left := fetch g leaf s.cell (g.node n).left s.left
  let right := fetch g leaf s.cell (g.node n).right s.right
  let res := result g leaf n left right s.res
  { left := left, right := right, res := res, cell := Function.update s.cell n res }

/-- What the code of all nodes computes in a row. -/
def evalRow (root : NodeRef) (s : RowState) : RowState :=
  (g.listing root).foldl (evalNode g leaf) s

variable {g leaf}

/-- A leaf is fetched where it is. -/
theorem fetch_leaf {cell : NodeRef → Word} {n : NodeRef}
    (h : g.kind n = .load ∨ g.kind n = .const) (stale : Word) :
    fetch g leaf cell (some n) stale = leaf n := by
  rcases h with h | h <;> simp only [fetch, h]

/-- Any other node is fetched from its cell. -/
theorem fetch_inner {cell : NodeRef → Word} {n : NodeRef}
    (h : ¬ (g.kind n = .load ∨ g.kind n = .const)) (stale : Word) :
    fetch g leaf cell (some n) stale = cell n := by
  unfold fetch
  cases hk : g.kind n <;> simp_all

/-- The root is evaluated last. -/
theorem evalRow_cell_root (root : NodeRef) (s : RowState) :
    (evalRow g leaf root s).cell root = (evalRow g leaf root s).res := by
  obtain ⟨l, hl⟩ := g.exists_listing_eq_snoc root
  rw [evalRow, hl, List.foldl_append, List.foldl_cons, List.foldl_nil]
  simp only [evalNode, Function.update_self]

end Eval

/-- The state and the mask after `k` rows. -/
def evalRows (g : Graph) (root : NodeRef) (leaf : ℕ → NodeRef → Word) (s : RowState) :
    ℕ → RowState × Word
  | 0 => (s, 0)
  | k + 1 =>
      let (s, mask) := evalRows g root leaf s k
      let s := evalRow g (leaf k) root s
      ({ s with res := s.res <<< k }, mask ||| s.res <<< k)

/-- The mask of the kernel, entered with given registers.  No cell is read before it is
written. -/
def mask (g : Graph) (root : NodeRef) (leaf : ℕ → NodeRef → Word) (left right res : Word) : Word :=
  (evalRows g root leaf ⟨left, right, res, fun _ => 0⟩ 64).2

/-! ## What the evaluation depends on -/

/-- The leaves of an expression are the same. -/
def SameLeaves (g : Graph) (root : NodeRef) (leaf leaf' : NodeRef → Word) : Prop :=
  ∀ n ∈ g.listing root, g.kind n = .load ∨ g.kind n = .const → leaf n = leaf' n

section Congr

variable {g : Graph} {root : NodeRef} {leaf leaf' : NodeRef → Word}

theorem fetch_congr (h : SameLeaves g root leaf leaf') (cell : NodeRef → Word)
    {operand : Option NodeRef} (hmem : ∀ c, operand = some c → c ∈ g.listing root) (stale : Word) :
    fetch g leaf cell operand stale = fetch g leaf' cell operand stale := by
  cases operand with
  | none => rfl
  | some c =>
    by_cases hk : g.kind c = .load ∨ g.kind c = .const
    · rw [fetch_leaf hk, fetch_leaf hk, h c (hmem c rfl) hk]
    · rw [fetch_inner hk, fetch_inner hk]

theorem result_congr (h : SameLeaves g root leaf leaf') {n : NodeRef} (hn : n ∈ g.listing root)
    (left right stale : Word) :
    result g leaf n left right stale = result g leaf' n left right stale := by
  have hleaf := h n hn
  cases hk : g.kind n <;> simp only [result, hk] <;> exact hleaf (by simp [hk])

/-- A row's evaluation depends on the leaves. -/
theorem evalRow_congr (h : SameLeaves g root leaf leaf') (s : RowState) :
    evalRow g leaf root s = evalRow g leaf' root s := by
  refine List.foldl_ext _ _ _ fun s n hn => ?_
  have hclosed : ∀ c ∈ (g.node n).children, c ∈ g.listing root := fun c hc =>
    (g.postOrder_listing root).closed hn hc
  simp only [evalNode, result_congr h hn,
    fetch_congr h _ fun c hc => hclosed c (Node.mem_children.mpr (Or.inl hc)),
    fetch_congr h _ fun c hc => hclosed c (Node.mem_children.mpr (Or.inr (Or.inl hc)))]

/-- **The mask depends on the leaves** of the 64 rows. -/
theorem mask_congr {leaf leaf' : ℕ → NodeRef → Word}
    (h : ∀ k < 64, SameLeaves g root (leaf k) (leaf' k)) (left right res : Word) :
    mask g root leaf left right res = mask g root leaf' left right res := by
  have hrows : ∀ k ≤ 64, ∀ s, evalRows g root leaf s k = evalRows g root leaf' s k := by
    intro k hk s
    induction k with
    | zero => rfl
    | succ k ih => simp only [evalRows, ih (by omega), evalRow_congr (h k (by omega))]
  rw [mask, mask, hrows 64 le_rfl]

end Congr
end Scalar
end Jit
end ApexEngine
