import ApexEngine.Jit.Builder
import ApexEngine.Jit.Expression
import ApexEngine.Jit.Semantics

/-!
# Expressions that compare a field with a constant

`GT(Load(f), Const(T))` says what `set_logic(schema, f, T)` says,
`LT(Load(f), Const(T))` the opposite way, and `EQ(Load(f), Const(T))` is what is between
them.  All are built by three calls on the pool of a thread that has built nothing;
their facts, for every field name and constant, are what the kernels for them are
compared by.  A fourth compares a sum of many terms, for the limit on additions.
-/

namespace ApexEngine
namespace Jit

open A64 (Word)

/-- `GT(Load(f), Const(T))`. -/
def NodePool.threshold (p : NodePool) (f : StringView) (T : Word) : Option NodeRef × NodePool :=
  let (a, p) := p.load f
  let (b, p) := p.const T
  p.gt a b

/-- The pool of a thread that has built the expression and nothing else. -/
def thresholdPool (f : StringView) (T : Word) : NodePool := (NodePool.fresh.threshold f T).2

section

variable (f : StringView) (T : Word)

theorem ordered_thresholdPool : (thresholdPool f T).Ordered := by
  refine NodePool.ordered_binary (NodePool.ordered_const
    (NodePool.ordered_load NodePool.ordered_fresh f) T) .gt ?_ ?_
  · rintro n hn
    obtain rfl := Option.some.inj hn
    exact Nat.zero_lt_two
  · rintro n hn
    obtain rfl := Option.some.inj hn
    exact Nat.one_lt_two

/-- The nodes of the expression: the field is node 0, the constant node 1 and the
comparison node 2. -/
def thresholdGraph : Graph := (thresholdPool f T).graph (ordered_thresholdPool f T)

theorem listing_threshold : (thresholdGraph f T).listing 2 = [0, 1, 2] := rfl

theorem fieldNames_threshold : (thresholdGraph f T).fieldNames 2 = [storedName f] := rfl

theorem loadNodes_threshold : (thresholdGraph f T).loadNodes 2 = [0] := rfl

theorem arithmeticNodes_threshold : (thresholdGraph f T).arithmeticNodes 2 = [] := rfl

theorem collectComparisons_threshold : collectComparisons (thresholdGraph f T) 2 = [2] := rfl

theorem wellTyped_threshold : (thresholdGraph f T).WellTyped 2 := of_decide_eq_true rfl

theorem over_threshold {kinds : List NodeKind} (h : [.load, .const, .gt] ⊆ kinds) :
    (thresholdGraph f T).Over 2 kinds := by
  intro n hn
  refine h ?_
  rw [listing_threshold] at hn
  simp only [List.mem_cons, List.not_mem_nil, or_false] at hn ⊢
  rcases hn with rfl | rfl | rfl
  · exact Or.inl rfl
  · exact Or.inr (Or.inl rfl)
  · exact Or.inr (Or.inr rfl)

/-- The expression is true when the field exceeds the constant. -/
theorem truth_threshold (row : Graph.Row) :
    (thresholdGraph f T).truth row 2 = decide (T < row (storedName f)) := rfl

end

/-- `LT(Load(f), Const(T))`. -/
def NodePool.below (p : NodePool) (f : StringView) (T : Word) : Option NodeRef × NodePool :=
  let (a, p) := p.load f
  let (b, p) := p.const T
  p.lt a b

section

variable (f : StringView) (T : Word)

/-- The pool of a thread that has built this one and nothing else. -/
def belowPool : NodePool := (NodePool.fresh.below f T).2

theorem ordered_belowPool : (belowPool f T).Ordered := by
  refine NodePool.ordered_binary (NodePool.ordered_const
    (NodePool.ordered_load NodePool.ordered_fresh f) T) .gt ?_ ?_
  · rintro n hn
    obtain rfl := Option.some.inj hn
    exact Nat.one_lt_two
  · rintro n hn
    obtain rfl := Option.some.inj hn
    exact Nat.zero_lt_two

/-- Its nodes: the comparison has the constant on the left. -/
def belowGraph : Graph := (belowPool f T).graph (ordered_belowPool f T)

theorem listing_below : (belowGraph f T).listing 2 = [1, 0, 2] := rfl

theorem loadNodes_below : (belowGraph f T).loadNodes 2 = [0] := rfl

theorem wellTyped_below : (belowGraph f T).WellTyped 2 := of_decide_eq_true rfl

theorem over_below {kinds : List NodeKind} (h : [.const, .load, .gt] ⊆ kinds) :
    (belowGraph f T).Over 2 kinds := by
  intro n hn
  refine h ?_
  rw [listing_below] at hn
  simp only [List.mem_cons, List.not_mem_nil, or_false] at hn ⊢
  rcases hn with rfl | rfl | rfl
  · exact Or.inl rfl
  · exact Or.inr (Or.inl rfl)
  · exact Or.inr (Or.inr rfl)

theorem truth_below (row : Graph.Row) :
    (belowGraph f T).truth row 2 = decide (row (storedName f) < T) := rfl

end

/-- `EQ(Load(f), Const(T))`. -/
def NodePool.equals (p : NodePool) (f : StringView) (T : Word) : Option NodeRef × NodePool :=
  let (a, p) := p.load f
  let (b, p) := p.const T
  p.eq a b

section

variable (f : StringView) (T : Word)

/-- The pool of a thread that has built this one and nothing else. -/
def equalsPool : NodePool := (NodePool.fresh.equals f T).2

theorem ordered_equalsPool : (equalsPool f T).Ordered := by
  refine NodePool.ordered_binary (NodePool.ordered_const
    (NodePool.ordered_load NodePool.ordered_fresh f) T) .eq ?_ ?_
  · rintro n hn
    obtain rfl := Option.some.inj hn
    exact Nat.zero_lt_two
  · rintro n hn
    obtain rfl := Option.some.inj hn
    exact Nat.one_lt_two

def equalsGraph : Graph := (equalsPool f T).graph (ordered_equalsPool f T)

theorem fieldNames_equals : (equalsGraph f T).fieldNames 2 = [storedName f] := rfl

theorem arithmeticNodes_equals : (equalsGraph f T).arithmeticNodes 2 = [] := rfl

theorem wellTyped_equals : (equalsGraph f T).WellTyped 2 := of_decide_eq_true rfl

theorem truth_equals (row : Graph.Row) :
    (equalsGraph f T).truth row 2 = decide (row (storedName f) = T) := rfl

end

/-! ## A difference below a constant -/

section

variable (f f' : StringView) (T : Word)

/-- The nodes of `LT(Sub(Load(f), Load(f')), Const(T))`, in the order in which the builder
takes them from a pool.  The comparison has the constant on the left. -/
def diffNode : ℕ → Node
  | 0 => { kind := .load, fieldName := storedName f }
  | 1 => { kind := .load, fieldName := storedName f' }
  | 2 => { kind := .sub, left := some 0, right := some 1 }
  | 3 => { kind := .const, constValue := T }
  | 4 => { kind := .gt, left := some 3, right := some 2 }
  | _ => { kind := .load }

/-- The graph of these nodes.  The root is node 4. -/
def diffGraph : Graph where
  node := diffNode f f' T
  rank := id
  rank_lt i c hc := by
    unfold diffNode at hc
    split at hc <;> simp [Node.children] at hc
    · rcases hc with rfl | rfl <;> decide
    · rcases hc with rfl | rfl <;> decide

theorem listing_diff : (diffGraph f f' T).listing 4 = [3, 0, 1, 2, 4] := rfl

theorem wellTyped_diff : (diffGraph f f' T).WellTyped 4 := of_decide_eq_true rfl

end

/-! ## Sums of many -/

/-- The nodes of `GT(f + f + ⋯ + f, f)` with `k` additions: the field, the additions, each
of which adds the field to the one before, and the comparison. -/
def sumsNode (f : Core.Name) (k i : ℕ) : Node :=
  if i = 0 then { kind := .load, fieldName := f }
  else if i ≤ k then { kind := .add, left := some (i - 1), right := some 0 }
  else { kind := .gt, left := some k, right := some 0 }

/-- The graph of these nodes.  The root is node `k + 1`. -/
def sumsGraph (f : Core.Name) (k : ℕ) : Graph where
  node := sumsNode f k
  rank := id
  rank_lt i c hc := by
    unfold sumsNode at hc
    split at hc
    · exact absurd hc (by simp [Node.children])
    · split at hc <;> simp [Node.children] at hc <;> rcases hc with rfl | rfl <;>
        simp only [id] <;> omega

end Jit
end ApexEngine
