import Mathlib.Algebra.BigOperators.Group.List.Basic
import Mathlib.Data.List.Count
import Mathlib.Tactic.Linarith
import Mathlib.Tactic.Ring

/-!
# Counting in blocks

A scan over `n` items that works in blocks of `w` visits the blocks that start at the
multiples of `w` below `n`, the last of them with fewer than `w` items when `w` does
not divide `n`.  `blockSum w n f` adds up `f start length` over these blocks.

Two facts are needed of it: a range that is cut at a multiple of `w` is scanned in the
same blocks (`blockSum_add`), and when the short last block is filled up with copies
of one item, the scan counts the items once and that item once for each place filled
(`blockSum_padded`).
-/

namespace Blocks

/-- The number of blocks. -/
def count (w n : ℕ) : ℕ := (n + (w - 1)) / w

/-- The sum over the blocks of `f start length`. -/
def blockSum (w n : ℕ) (f : ℕ → ℕ → ℕ) : ℕ :=
  ((List.range (count w n)).map fun c => f (c * w) (min w (n - c * w))).sum

section

variable {w n m : ℕ} {f f' : ℕ → ℕ → ℕ}

/-- A block is visited exactly while it starts below the end. -/
theorem lt_count_iff (hw : 0 < w) {c : ℕ} : c < count w n ↔ c * w < n := by
  rw [count, Nat.lt_div_iff_mul_lt hw]
  omega

theorem count_mul (hw : 0 < w) (k : ℕ) : count w (k * w) = k := by
  rw [count, Nat.mul_comm, Nat.mul_add_div hw, Nat.div_eq_of_lt (by omega), Nat.add_zero]

theorem count_mul_of_dvd (hw : 0 < w) (h : w ∣ n) : count w n * w = n := by
  obtain ⟨k, rfl⟩ := h
  rw [Nat.mul_comm w k, count_mul hw]

theorem count_add (hw : 0 < w) (k n : ℕ) : count w (k * w + n) = k + count w n := by
  rw [count, count, Nat.mul_comm, Nat.add_assoc, Nat.mul_add_div hw]

/-- The blocks cover the items. -/
theorem le_count_mul (hw : 0 < w) : n ≤ count w n * w := by
  by_contra h
  exact absurd ((lt_count_iff hw).mpr (Nat.lt_of_not_le h)) (Nat.lt_irrefl _)

/-- The last block is not empty. -/
theorem count_mul_lt (hw : 0 < w) : count w n * w < n + w := by
  have := Nat.div_mul_le_self (n + (w - 1)) w
  rw [count]
  omega

theorem blockSum_congr (hw : 0 < w)
    (h : ∀ c, c * w < n → f (c * w) (min w (n - c * w)) = f' (c * w) (min w (n - c * w))) :
    blockSum w n f = blockSum w n f' := by
  unfold blockSum
  congr 1
  refine List.map_congr_left fun c hc => h c ?_
  exact (lt_count_iff hw).mp (List.mem_range.mp hc)

/-- A range that fits into one block. -/
theorem blockSum_of_le (hn : 0 < n) (hle : n ≤ w) (f : ℕ → ℕ → ℕ) : blockSum w n f = f 0 n := by
  have hcount : count w n = 1 := by
    have hfirst : 0 < count w n := (lt_count_iff (by omega)).mpr (by omega)
    have hsecond : ¬ 1 < count w n := fun h => by
      have := (lt_count_iff (by omega)).mp h
      omega
    omega
  simp [blockSum, hcount, Nat.min_eq_right hle]

/-- **Cutting at a multiple of the block size** changes no block. -/
theorem blockSum_add (hw : 0 < w) (k n : ℕ) (f : ℕ → ℕ → ℕ) :
    blockSum w (k * w + n) f =
      blockSum w (k * w) f + blockSum w n fun start len => f (k * w + start) len := by
  unfold blockSum
  rw [count_add hw, count_mul hw, List.range_add, List.map_append, List.sum_append, List.map_map]
  congr 1
  · congr 1
    refine List.map_congr_left fun c hc => ?_
    have hlt := List.mem_range.mp hc
    have hle : c * w + w ≤ k * w := by
      rw [← Nat.succ_mul]
      exact Nat.mul_le_mul_right w hlt
    congr 1
    omega
  · congr 1
    refine List.map_congr_left fun c _ => ?_
    rw [Function.comp_apply, Nat.add_mul]
    congr 1
    omega

/-- **A range cut into equal parts** of a whole number of blocks each. -/
theorem sum_blockSum (hw : 0 < w) {r : ℕ} (hr : w ∣ r) (k : ℕ) (f : ℕ → ℕ → ℕ) :
    ((List.range k).map fun t => blockSum w r fun start len => f (t * r + start) len).sum =
      blockSum w (k * r) f := by
  obtain ⟨q, rfl⟩ := hr
  induction k with
  | zero => simp [blockSum, count, Nat.div_eq_of_lt (show w - 1 < w by omega)]
  | succ k ih =>
    have hk : k * (w * q) = k * q * w := by ring
    rw [List.range_succ, List.map_append, List.sum_append, ih, Nat.succ_mul, hk, blockSum_add hw]
    simp only [List.map_singleton, List.sum_singleton, hk]

/-- Counting a whole number of blocks. -/
theorem countP_range_mul (P : ℕ → Bool) (k : ℕ) :
    ((List.range k).map fun c => (List.range w).countP fun i => P (c * w + i)).sum =
      (List.range (k * w)).countP P := by
  induction k with
  | zero => simp
  | succ k ih =>
    rw [List.range_succ, List.map_append, List.sum_append, ih, Nat.succ_mul, List.range_add,
      List.countP_append, List.countP_map]
    simp [Function.comp_def]

/-- **Counting with the last block filled up** by copies of one item. -/
theorem blockSum_padded (hw : 0 < w) (n : ℕ) (P : ℕ → Bool) (z : Bool) :
    (blockSum w n fun start len =>
        (List.range w).countP fun i => if i < len then P (start + i) else z) =
      (List.range n).countP P + if z then count w n * w - n else 0 := by
  -- the blocks read one predicate, which beyond the items has the value of the filling
  have hblock : (blockSum w n fun start len =>
      (List.range w).countP fun i => if i < len then P (start + i) else z) =
      (List.range (count w n * w)).countP fun j => if j < n then P j else z := by
    rw [← countP_range_mul, blockSum]
    congr 1
    refine List.map_congr_left fun c hc => List.countP_congr fun i hi => ?_
    have hci := (lt_count_iff hw).mp (List.mem_range.mp hc)
    have hiw := List.mem_range.mp hi
    have hiff : i < min w (n - c * w) ↔ c * w + i < n := by omega
    simp only [hiff]
  obtain ⟨k, hk⟩ := Nat.exists_eq_add_of_le (le_count_mul hw (n := n))
  rw [hblock, hk, List.range_add, List.countP_append, List.countP_map]
  congr 1
  · refine List.countP_congr fun j hj => ?_
    simp only [List.mem_range.mp hj, if_true]
  · have hrest : ((fun j => if j < n then P j else z) ∘ fun x => n + x) = fun _ => z := by
      funext j
      rw [Function.comp_apply, if_neg (by omega)]
    rw [hrest, Nat.add_sub_cancel_left]
    cases z <;> simp

end
end Blocks
