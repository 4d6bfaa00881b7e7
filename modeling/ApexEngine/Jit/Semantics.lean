import ApexEngine.BitPlane.Arith
import ApexEngine.Jit.Analyzer

/-!
# What an expression means

The reference meaning of an expression on one row, independent of both compilers:
`Graph.value` for the nodes that are 64-bit values and `Graph.truth` for those that
are conditions.  Arithmetic is modulo `2 ^ 64` and comparisons are unsigned.

An expression has a meaning when every node of it finds operands of the right result
kind (`Graph.WellTyped`).  The result kinds are those of the analysis: a value for a
field, a constant, a sum, a difference or a shift, a mask for everything else.
-/

namespace ApexEngine
namespace Jit

open A64 (Word)
open Core (Name)

/-- `ExecutionMode`. -/
inductive ExecutionMode where
  | bitSliced | scalar
  deriving DecidableEq, Repr

/-! ## Typing -/

namespace NodeKind

/-- The result kind asked of a left operand. -/
def leftKind : NodeKind → Option ResultKind
  | .load | .const => none
  | .add | .sub | .gt | .lt | .eq | .lsl | .lsr => some .bitplane
  | .and | .or | .not | .select => some .bitmask

/-- The result kind asked of a right operand. -/
def rightKind : NodeKind → Option ResultKind
  | .add | .sub | .gt | .lt | .eq => some .bitplane
  | .and | .or | .select => some .bitmask
  | _ => none

/-- The result kind asked of a condition. -/
def condKind : NodeKind → Option ResultKind
  | .select => some .bitmask
  | _ => none

end NodeKind

namespace Graph

variable (g : Graph)

/-- An operand that is asked for is there and has the result kind. -/
def Gives (operand : Option NodeRef) (want : Option ResultKind) : Prop :=
  ∀ kind ∈ want, ∃ c ∈ operand, (g.kind c).resultKind = kind

instance (operand : Option NodeRef) (want : Option ResultKind) :
    Decidable (g.Gives operand want) := by
  unfold Gives
  infer_instance

/-- A node finds the operands its kind asks for. -/
structure NodeTyped (n : NodeRef) : Prop where
  left : g.Gives (g.node n).left (g.kind n).leftKind
  right : g.Gives (g.node n).right (g.kind n).rightKind
  cond : g.Gives (g.node n).cond (g.kind n).condKind

instance (n : NodeRef) : Decidable (g.NodeTyped n) :=
  decidable_of_iff (g.Gives (g.node n).left (g.kind n).leftKind ∧
      g.Gives (g.node n).right (g.kind n).rightKind ∧
      g.Gives (g.node n).cond (g.kind n).condKind)
    ⟨fun h => ⟨h.1, h.2.1, h.2.2⟩, fun h => ⟨h.left, h.right, h.cond⟩⟩

/-- An expression for a mask: every node of it is typed. -/
structure WellTyped (root : NodeRef) : Prop where
  node : ∀ n ∈ g.listing root, g.NodeTyped n
  mask : (g.kind root).resultKind = .bitmask

instance (root : NodeRef) : Decidable (g.WellTyped root) :=
  decidable_of_iff ((∀ n ∈ g.listing root, g.NodeTyped n) ∧ (g.kind root).resultKind = .bitmask)
    ⟨fun h => ⟨h.1, h.2⟩, fun h => ⟨h.node, h.mask⟩⟩

/-- Only the listed kinds occur in an expression. -/
def Over (root : NodeRef) (kinds : List NodeKind) : Prop := ∀ n ∈ g.listing root, g.kind n ∈ kinds

instance (root : NodeRef) (kinds : List NodeKind) : Decidable (g.Over root kinds) := by
  unfold Over
  infer_instance

section Operands

variable {g} {root n : NodeRef}

theorem mem_listing_left {c : NodeRef} (hn : n ∈ g.listing root) (h : (g.node n).left = some c) :
    c ∈ g.listing root :=
  (g.postOrder_listing root).closed hn (Node.mem_children.mpr (Or.inl h))

theorem mem_listing_right {c : NodeRef} (hn : n ∈ g.listing root)
    (h : (g.node n).right = some c) : c ∈ g.listing root :=
  (g.postOrder_listing root).closed hn (Node.mem_children.mpr (Or.inr (Or.inl h)))

theorem mem_listing_cond {c : NodeRef} (hn : n ∈ g.listing root) (h : (g.node n).cond = some c) :
    c ∈ g.listing root :=
  (g.postOrder_listing root).closed hn (Node.mem_children.mpr (Or.inr (Or.inr h)))

/-- The left operand of a node that asks for one. -/
theorem WellTyped.left (h : g.WellTyped root) (hn : n ∈ g.listing root) {kind : ResultKind}
    (hk : (g.kind n).leftKind = some kind) :
    ∃ c, (g.node n).left = some c ∧ c ∈ g.listing root ∧ (g.kind c).resultKind = kind := by
  obtain ⟨c, hc, hck⟩ := (h.node n hn).left kind hk
  exact ⟨c, hc, mem_listing_left hn hc, hck⟩

/-- The right operand of a node that asks for one. -/
theorem WellTyped.right (h : g.WellTyped root) (hn : n ∈ g.listing root) {kind : ResultKind}
    (hk : (g.kind n).rightKind = some kind) :
    ∃ c, (g.node n).right = some c ∧ c ∈ g.listing root ∧ (g.kind c).resultKind = kind := by
  obtain ⟨c, hc, hck⟩ := (h.node n hn).right kind hk
  exact ⟨c, hc, mem_listing_right hn hc, hck⟩

/-- The condition of a node that asks for one. -/
theorem WellTyped.cond (h : g.WellTyped root) (hn : n ∈ g.listing root) {kind : ResultKind}
    (hk : (g.kind n).condKind = some kind) :
    ∃ c, (g.node n).cond = some c ∧ c ∈ g.listing root ∧ (g.kind c).resultKind = kind := by
  obtain ⟨c, hc, hck⟩ := (h.node n hn).cond kind hk
  exact ⟨c, hc, mem_listing_cond hn hc, hck⟩

end Operands

/-! ## Meaning -/

/-- The values of the fields of one row, by name. -/
abbrev Row := Name → Word

section Meaning

variable (row : Row)

/-- The value of a node from those of its operands. -/
def valueStep (n : NodeRef) (left right _cond : Option Word) : Word :=
  match g.kind n with
  | .load => row (g.node n).fieldName
  | .const => (g.node n).constValue
  | .add => left.getD 0 + right.getD 0
  | .sub => left.getD 0 - right.getD 0
  | .lsl => left.getD 0 <<< (g.node n).shiftAmount.toNat
  | .lsr => left.getD 0 >>> (g.node n).shiftAmount.toNat
  | _ => 0

/-- The value of a node on a row. -/
def value : NodeRef → Word := g.fold (g.valueStep row)

/-- The value of an operand. -/
def operandValue (operand : Option NodeRef) : Word := (operand.map (g.value row)).getD 0

/-- Whether a condition holds, from its operands. -/
def truthStep (n : NodeRef) (left right cond : Option Bool) : Bool :=
  match g.kind n with
  | .gt => decide (g.operandValue row (g.node n).right < g.operandValue row (g.node n).left)
  | .lt => decide (g.operandValue row (g.node n).left < g.operandValue row (g.node n).right)
  | .eq => decide (g.operandValue row (g.node n).left = g.operandValue row (g.node n).right)
  | .and => left.getD false && right.getD false
  | .or => left.getD false || right.getD false
  | .not => !left.getD false
  | .select => if cond.getD false then left.getD false else right.getD false
  | _ => false

/-- **Whether a condition holds on a row.** -/
def truth : NodeRef → Bool := g.fold (g.truthStep row)

theorem value_eq (n : NodeRef) :
    g.value row n = g.valueStep row n ((g.node n).left.map (g.value row))
      ((g.node n).right.map (g.value row)) ((g.node n).cond.map (g.value row)) :=
  g.fold_eq _ n

theorem truth_eq (n : NodeRef) :
    g.truth row n = g.truthStep row n ((g.node n).left.map (g.truth row))
      ((g.node n).right.map (g.truth row)) ((g.node n).cond.map (g.truth row)) :=
  g.fold_eq _ n

end Meaning
end Graph

/-! ## Rows in the planes of a kernel -/

/-- What a plane buffer contains for a column of 64 values: the transposed bits or
the values themselves. -/
def ShowsColumn (mode : ExecutionMode) (plane : ℕ → Word) (column : ℕ → Word) : Prop :=
  match mode with
  | .bitSliced => ∀ r < 64, BitPlane.Shows plane r (column r)
  | .scalar => ∀ r < 64, plane r = column r

/-- Every field of an expression is bound under the index its LOAD nodes have, to its
values on 64 rows. -/
def Presents (mode : ExecutionMode) (g : Graph) (root : NodeRef) (ms : NodeMetas)
    (planes : ℕ → Option (ℕ → Word)) (rows : ℕ → Graph.Row) : Prop :=
  ∀ n ∈ g.loadNodes root, ∃ p, planes (ms n).fieldIdx.toNat = some p ∧
    ShowsColumn mode p fun r => rows r (g.node n).fieldName

/-- Columns that are presented are bound. -/
theorem Presents.isSome {mode : ExecutionMode} {g : Graph} {root : NodeRef} {ms : NodeMetas}
    {planes : ℕ → Option (ℕ → Word)} {rows : ℕ → Graph.Row}
    (hp : Presents mode g root ms planes rows) :
    ∀ n ∈ g.loadNodes root, (planes (ms n).fieldIdx.toNat).isSome := by
  intro n hn
  obtain ⟨p, hplane, -⟩ := hp n hn
  rw [hplane]
  rfl

end Jit
end ApexEngine
