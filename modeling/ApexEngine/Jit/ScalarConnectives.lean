import ApexEngine.Jit.CompiledKernel
import ApexEngine.Jit.Connectives
import ApexEngine.Jit.StandIns

/-!
# Negations and selections in scalar mode

The builder makes negations and selections of masks, the analysis accepts them, and the
scalar compiler refuses no expression.  It has no code for either: the cell of such a node
gets what the node listed before it has (`Graph.read`).  For a negation this is usually its
operand, so that `NOT(p)` is compiled to `p`, and for a selection usually its condition, so
that `SELECT(c, a, b)` is compiled to `c`.  If the operands were listed before from
elsewhere, it is an unrelated node.

The kernel is right on all rows exactly when the expression that is read this way is true
on the rows on which the expression is (`scalarConnectives_iff`).  A word above one, which
only an expression with left-over operands has, reaches other rows and does no harm if all
rows are true.  Without left-over operands the words are truth values and single rows can
be told.

A negation at the root that is listed right after its operand is wrong on every row
(`not_tellsTruth_of_not`), and a selection that is listed right after its condition is
right on the rows on which the condition implies the first operand and its failure excludes
the second (`tellsTruth_iff_of_select`).
-/

namespace ApexEngine
namespace Jit

open A64 (Word)

/-- The expression, as it is read, has the truth of every row in its last bit; and it is at
most one on every row, unless every row is true. -/
def ReadRight (g : Graph) (root : NodeRef) : Prop :=
  (∀ row : Graph.Row, (g.read root row root).getLsbD 0 = g.truth row root) ∧
    ((∀ row : Graph.Row, (g.read root row root).toNat ≤ 1) ∨
      ∀ row : Graph.Row, g.truth row root = true)

section Masks

variable {g : Graph} {root : NodeRef} {rows : ℕ → Graph.Row}

/-- A word above one has another bit than the last. -/
theorem exists_getLsbD_of_one_lt {w : Word} (h : 1 < w.toNat) :
    ∃ k, 1 ≤ k ∧ k < 64 ∧ w.getLsbD k = true := by
  by_contra hnone
  have hlt : w.toNat < 2 ^ 1 := Nat.lt_pow_two_of_testBit _ fun k hk => by
    rw [BitVec.testBit_toNat]
    by_contra hbit
    rw [Bool.not_eq_false] at hbit
    exact hnone ⟨k, hk, BitVec.lt_of_getLsbD hbit, hbit⟩
  omega

/-- The last bit of the word that is read. -/
theorem scalarTruth_eq_read (hw : g.WellTyped root) (row : Graph.Row) :
    g.scalarTruth row root = (g.read root row root).getLsbD 0 := by
  rw [Graph.scalarTruth, scalarValue_eq_read hw]

/-- Words that are at most one decide their own rows. -/
theorem laneVerdict_of_le_one (hw : g.WellTyped root)
    (hle : ∀ row : Graph.Row, (g.read root row root).toNat ≤ 1) {r : ℕ} (hr : r < 64) :
    laneVerdict g rows .scalar root r = (g.read root (rows r) root).getLsbD 0 := by
  have hwords : ∀ j < 64, g.scalarValue (rows j) root =
      if (g.read root (rows j) root).getLsbD 0 then 1 else 0 := fun j _ => by
    rw [scalarValue_eq_read hw]
    exact eq_ite_of_le_one (hle (rows j))
  exact Bool.eq_iff_iff.mpr ((laneVerdict_scalar_iff r).trans (exists_shiftLeft_iff hwords hr))

/-- If the kernel is right on all rows, the expression is read right. -/
theorem readRight_of_tellsTruth (hw : g.WellTyped root) (k : CompiledKernel .scalar g root)
    (h : ∀ rows, k.TellsTruth rows) : ReadRight g root := by
  have hlane : ∀ (rows : ℕ → Graph.Row), ∀ r < 64,
      laneVerdict g rows .scalar root r = g.truth (rows r) root := fun rows r hr =>
    (k.mask_getLsbD hw rows hr).symm.trans ((k.tellsTruth_iff rows).mp (h rows) r hr)
  constructor
  · intro row
    rw [← scalarTruth_eq_read hw, ← hlane (fun _ => row) 0 (by omega), laneVerdict_scalar_zero]
  · by_contra hnone
    simp only [not_or, not_forall, not_le] at hnone
    obtain ⟨⟨y, hy⟩, x, hx⟩ := hnone
    obtain ⟨j, hj, hj64, hbit⟩ := exists_getLsbD_of_one_lt hy
    -- the first row is `y`, and its bit `j` is set in row `j`, which is `x`
    have hset : laneVerdict g (Function.update (fun _ => x) 0 y) .scalar root j = true := by
      refine (laneVerdict_scalar_iff_wordBit hj64).mpr ⟨j, le_rfl, ?_⟩
      rw [Nat.sub_self, Function.update_self, Graph.wordBit, scalarValue_eq_read hw]
      exact hbit
    rw [hlane _ j hj64, Function.update_of_ne (by omega)] at hset
    exact hx hset

/-- An expression that is read right has the right masks. -/
theorem ReadRight.tellsTruth (h : ReadRight g root) (hw : g.WellTyped root)
    (k : CompiledKernel .scalar g root) (rows : ℕ → Graph.Row) : k.TellsTruth rows := by
  obtain ⟨hlast, hwords⟩ := h
  refine (k.tellsTruth_iff rows).mpr fun r hr => ?_
  rw [k.mask_getLsbD hw rows hr]
  rcases hwords with hle | htrue
  · rw [laneVerdict_of_le_one hw hle hr, hlast]
  · rw [htrue]
    refine laneVerdict_of_scalarTruth hr ?_
    rw [scalarTruth_eq_read hw, hlast, htrue]

/-- Without left-over operands the words are at most one. -/
theorem read_le_one_of_tidy (hw : g.WellTyped root) (ht : g.Tidy root) (row : Graph.Row) :
    (g.read root row root).toNat ≤ 1 := by
  rw [← scalarValue_eq_read hw]
  exact scalarValue_le_one_of_tidy hw ht

/-- Then single rows can be told. -/
theorem tellsTruth_iff_of_tidy (hw : g.WellTyped root) (ht : g.Tidy root)
    (k : CompiledKernel .scalar g root) (rows : ℕ → Graph.Row) :
    k.TellsTruth rows ↔ ∀ r < 64,
      g.read root (rows r) root = if g.truth (rows r) root then 1 else 0 := by
  rw [k.tellsTruth_iff rows]
  refine forall₂_congr fun r hr => ?_
  have hle := read_le_one_of_tidy hw ht
  rw [k.mask_getLsbD hw rows hr, laneVerdict_of_le_one hw hle hr]
  constructor
  · intro h
    rw [← h]
    exact eq_ite_of_le_one (hle _)
  · intro h
    rw [h]
    cases g.truth (rows r) root <;> rfl

end Masks

/-! ## At the root -/

section Root

variable {g : Graph} {root c a b : NodeRef}

/-- Kinds with code in what a node stands for make its word the truth of the stand-in. -/
theorem read_of_standIn (hw : g.WellTyped root) (hk : (g.kind root).hasCode = false)
    (hbefore : g.before root root = some c) (hc : c ∈ g.listing root)
    (hmask : (g.kind c).resultKind = .bitmask) (hover : g.Over c scalarKinds) (row : Graph.Row) :
    g.read root row root = if g.truth row c then 1 else 0 := by
  rw [read_of_before (g.root_mem_listing root) hk hbefore, read_eq_word hw hc hover,
    Graph.word_of_bitmask hmask]

theorem ite_eq_ite_iff (p q : Bool) :
    ((if p then 1 else 0 : Word) = if q then 1 else 0) ↔ p = q := by
  cases p <;> cases q <;> decide

/-- **A negation listed right after its operand** is wrong on every row: it is compiled to the
operand. -/
theorem not_tellsTruth_of_not (hw : g.WellTyped root) (ht : g.Tidy root)
    (hk : g.kind root = .not) (hl : (g.node root).left = some c)
    (hbefore : g.before root root = some c) (hover : g.Over c scalarKinds)
    (k : CompiledKernel .scalar g root) (rows : ℕ → Graph.Row) : ¬ k.TellsTruth rows := by
  intro h
  obtain ⟨d, hd, hmem, hmask⟩ := hw.left (g.root_mem_listing root) (by rw [hk]; rfl)
  obtain rfl : c = d := Option.some.inj (hl.symm.trans hd)
  have hread := (tellsTruth_iff_of_tidy hw ht k rows).mp h 0 (by omega)
  have htruth : g.truth (rows 0) root = !g.truth (rows 0) c := by
    rw [g.truth_eq, Graph.truthStep, hk, hl]
    rfl
  rw [read_of_standIn hw (by rw [hk]; rfl) hbefore hmem hmask hover, htruth, ite_eq_ite_iff] at hread
  cases hc : g.truth (rows 0) c <;> simp [hc] at hread

/-- **A selection listed right after its condition** is compiled to the condition. -/
theorem tellsTruth_iff_of_select (hw : g.WellTyped root) (ht : g.Tidy root)
    (hk : g.kind root = .select) (hcond : (g.node root).cond = some c)
    (hl : (g.node root).left = some a) (hr : (g.node root).right = some b)
    (hbefore : g.before root root = some c) (hover : g.Over c scalarKinds)
    (k : CompiledKernel .scalar g root) (rows : ℕ → Graph.Row) :
    k.TellsTruth rows ↔ ∀ r < 64, (g.truth (rows r) c = true → g.truth (rows r) a = true) ∧
      (g.truth (rows r) c = false → g.truth (rows r) b = false) := by
  obtain ⟨d, hd, hmem, hmask⟩ := hw.cond (g.root_mem_listing root) (by rw [hk]; rfl)
  obtain rfl : c = d := Option.some.inj (hcond.symm.trans hd)
  rw [tellsTruth_iff_of_tidy hw ht k rows]
  refine forall₂_congr fun r _ => ?_
  have htruth : g.truth (rows r) root =
      if g.truth (rows r) c then g.truth (rows r) a else g.truth (rows r) b := by
    rw [g.truth_eq, Graph.truthStep, hk, hcond, hl, hr]
    rfl
  rw [read_of_standIn hw (by rw [hk]; rfl) hbefore hmem hmask hover, htruth, ite_eq_ite_iff]
  cases g.truth (rows r) c <;> simp

/-- **Where negations and selections are compiled to what they mean**: the scalar kernel of a
well-typed expression is right on all rows exactly when the expression is read right; and
one without left-over operands is right on 64 rows exactly when it is read as its truth
value on each of them.  So it is wrong on all rows for a negation that is listed right after
its operand, and for a selection that is listed right after its condition it is right where
the condition has the truth of the selection. -/
theorem scalarConnectives_iff (k : CompiledKernel .scalar g root) (hw : g.WellTyped root) :
    ((∀ rows, k.TellsTruth rows) ↔ ReadRight g root) ∧
    (g.Tidy root → ∀ rows, (k.TellsTruth rows ↔ ∀ r < 64,
      g.read root (rows r) root = if g.truth (rows r) root then 1 else 0)) ∧
    (g.Tidy root → ∀ c, g.before root root = some c → g.Over c scalarKinds → ∀ rows,
      (g.kind root = .not → (g.node root).left = some c → ¬ k.TellsTruth rows) ∧
      ∀ a b, g.kind root = .select → (g.node root).cond = some c →
        (g.node root).left = some a → (g.node root).right = some b →
        (k.TellsTruth rows ↔ ∀ r < 64, (g.truth (rows r) c = true → g.truth (rows r) a = true) ∧
          (g.truth (rows r) c = false → g.truth (rows r) b = false))) := by
  refine ⟨⟨readRight_of_tellsTruth hw k, fun h => h.tellsTruth hw k⟩,
    fun ht => tellsTruth_iff_of_tidy hw ht k, fun ht c hbefore hover rows => ⟨?_, ?_⟩⟩
  · intro hk hl
    exact not_tellsTruth_of_not hw ht hk hl hbefore hover k rows
  · intro a b hk hcond hl hr
    exact tellsTruth_iff_of_select hw ht hk hcond hl hr hbefore hover k rows

end Root

/-! ## A selection and a negation -/

/-- The nodes of `SELECT(f > 5, f > 3, f > 7)` for a field `f`; the condition is node 6 and the
selection node 7. -/
def betweenNode : ℕ → Node
  | 0 => { kind := .load, fieldName := [102] }
  | 1 => { kind := .const, constValue := 3 }
  | 2 => { kind := .gt, left := some 0, right := some 1 }
  | 3 => { kind := .const, constValue := 7 }
  | 4 => { kind := .gt, left := some 0, right := some 3 }
  | 5 => { kind := .const, constValue := 5 }
  | 6 => { kind := .gt, left := some 0, right := some 5 }
  | 7 => { kind := .select, cond := some 6, left := some 2, right := some 4 }
  | _ => { kind := .load }

/-- The graph of these nodes. -/
def betweenGraph : Graph where
  node := betweenNode
  rank := id
  rank_lt i c hc := by
    unfold betweenNode at hc
    split at hc <;> simp [Node.children] at hc
    · rcases hc with rfl | rfl <;> decide
    · rcases hc with rfl | rfl <;> decide
    · rcases hc with rfl | rfl <;> decide
    · rcases hc with rfl | rfl | rfl <;> decide

/-- A selection whose operands follow from its condition and its failure: its kernel is right
on all rows. -/
theorem scalarConnectives_iff_between :
    ∃ k : CompiledKernel .scalar betweenGraph 7, ∀ rows, k.TellsTruth rows := by
  obtain ⟨k⟩ := @CompiledKernel.nonempty_scalar betweenGraph 7 fun _ => ⟨by decide, by decide⟩
  refine ⟨k, ((scalarConnectives_iff k (by decide)).1).mpr ?_⟩
  have hread : ∀ row : Graph.Row,
      betweenGraph.read 7 row 7 = if (5 : Word) < row [102] then 1 else 0 := fun row => rfl
  have htruth : ∀ row : Graph.Row, betweenGraph.truth row 7 =
      if decide ((5 : Word) < row [102]) then decide ((3 : Word) < row [102])
      else decide ((7 : Word) < row [102]) := fun row => rfl
  refine ⟨fun row => ?_, Or.inl fun row => ?_⟩
  · rw [hread, htruth]
    by_cases h : (5 : Word) < row [102]
    · have h3 : (3 : Word) < row [102] := by bv_omega
      rw [if_pos h, if_pos (decide_eq_true h), decide_eq_true h3]
      rfl
    · have h7 : ¬ (7 : Word) < row [102] := by bv_omega
      rw [if_neg h, if_neg (by simpa using h), decide_eq_false h7]
      rfl
  · rw [hread]
    split <;> decide

/-- **A negation without effect**: the scalar kernel of `NOT(a > 5)` returns all ones on rows
with `a = 7`. -/
theorem scalarConnectives_negation : ¬ ∀ (g : Graph) (root : NodeRef)
    (k : CompiledKernel .scalar g root) (rows : ℕ → Graph.Row), g.WellTyped root →
    g.Over root (scalarKinds ++ [.not, .select]) →
    (∃ n ∈ g.listing root, g.kind n = .not ∨ g.kind n = .select) → k.TellsTruth rows := by
  intro h
  obtain ⟨k⟩ := @CompiledKernel.nonempty_scalar excludedGraph 3 fun _ => ⟨by decide, by decide⟩
  have hw : excludedGraph.WellTyped 3 := by decide
  have ht : excludedGraph.Tidy 3 := ⟨by decide, by decide, by decide⟩
  have hmem : (3 : NodeRef) ∈ excludedGraph.listing 3 := by decide
  exact not_tellsTruth_of_not hw ht rfl rfl rfl (by decide) k (fun _ _ => 7)
    (h excludedGraph 3 k _ hw (by decide) ⟨3, hmem, Or.inl rfl⟩)

end Jit
end ApexEngine
