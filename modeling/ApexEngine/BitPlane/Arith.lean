import Mathlib.Data.Nat.Notation
import Mathlib.Tactic.Ring

/-!
# Arithmetic on bit-planes

A table of numbers is stored by bit position: plane `b` is a word whose lane `r`
is bit `b` of the `r`-th number.  One word operation then works on the same bit of
every number at once, and no operation mixes lanes.  `Shows` says which number a
lane of some planes holds.

Two circuits are built from word operations here.  The comparator goes through the
planes from the most significant one down and keeps two masks, `gt` and `eq`; its
invariant at bit `b` compares the numbers shifted right by `b` (`Compared`).  The
adder goes up from the least significant plane and keeps a mask of carries; its
invariant at bit `b` is the carry into position `b` (`sum_lane`, `carry_lane`).  A
subtraction is an addition of the complement with the carry it starts from.
-/

namespace BitPlane

variable {w n : ℕ}

/-- Lane `r` of the planes holds the number `x`. -/
def Shows (planes : ℕ → BitVec w) (r : ℕ) (x : BitVec n) : Prop :=
  ∀ b < n, (planes b).getLsbD r = x.getLsbD b

/-- The planes of a column of numbers. -/
def columnPlane (column : ℕ → BitVec n) (b : ℕ) : BitVec w :=
  (BitVec.ofBoolListLE ((List.range w).map fun r => (column r).getLsbD b)).setWidth w

theorem columnPlane_getLsbD (column : ℕ → BitVec n) (b : ℕ) {r : ℕ} (hr : r < w) :
    (columnPlane column b : BitVec w).getLsbD r = (column r).getLsbD b := by
  rw [columnPlane, BitVec.getLsbD_setWidth, BitVec.getLsbD_ofBoolListLE]
  simp [hr]

/-- There is only one way to show a column. -/
theorem Shows.eq_columnPlane {planes : ℕ → BitVec w} {column : ℕ → BitVec n}
    (h : ∀ r < w, Shows planes r (column r)) {b : ℕ} (hb : b < n) :
    planes b = columnPlane column b := by
  apply BitVec.eq_of_getLsbD_eq
  intro r hr
  rw [h r hr b hb, columnPlane_getLsbD column b hr]

/-- The number that lane `r` of `n` planes holds. -/
def laneNumber (n : ℕ) (planes : ℕ → BitVec w) (r : ℕ) : BitVec n :=
  (BitVec.ofBoolListLE ((List.range n).map fun b => (planes b).getLsbD r)).setWidth n

theorem shows_laneNumber (planes : ℕ → BitVec w) (r : ℕ) :
    Shows planes r (laneNumber n planes r) := by
  intro b hb
  rw [laneNumber, BitVec.getLsbD_setWidth, BitVec.getLsbD_ofBoolListLE]
  simp [hb]

/-! ## Comparison -/

/-- The state of a comparison: lanes decided greater, lanes still equal. -/
@[ext] structure Comparison (w : ℕ) where
  gt : BitVec w
  eq : BitVec w

namespace Comparison

/-- Before the first plane nothing is decided. -/
def start : Comparison w := ⟨0, BitVec.allOnes w⟩

/-- One plane of each side. -/
def step (a b : BitVec w) (s : Comparison w) : Comparison w where
  gt := s.gt ||| (s.eq &&& (a &&& ~~~b))
  eq := s.eq &&& ~~~(a ^^^ b)

end Comparison

/-- The comparison of `x` and `y` in lane `r` with the bits from `b` up seen. -/
def Compared (s : Comparison w) (r : ℕ) (x y : BitVec n) (b : ℕ) : Prop :=
  s.gt.getLsbD r = decide (y.toNat / 2 ^ b < x.toNat / 2 ^ b) ∧
    s.eq.getLsbD r = decide (x.toNat / 2 ^ b = y.toNat / 2 ^ b)

theorem toNat_div_two_pow (x : BitVec n) (b : ℕ) :
    x.toNat / 2 ^ b = 2 * (x.toNat / 2 ^ (b + 1)) + (x.getLsbD b).toNat := by
  rw [BitVec.getLsbD, Nat.testBit_eq_decide_div_mod_eq, pow_succ, ← Nat.div_div_eq_div_mul]
  rcases Nat.mod_two_eq_zero_or_one (x.toNat / 2 ^ b) with h | h
  · simp only [h, Nat.zero_ne_one, decide_false, Bool.toNat_false]
    omega
  · simp only [h, decide_true, Bool.toNat_true]
    omega

theorem Compared.start {r : ℕ} (hr : r < w) (x y : BitVec n) :
    Compared (Comparison.start : Comparison w) r x y n := by
  have hx : x.toNat / 2 ^ n = 0 := Nat.div_eq_of_lt x.isLt
  have hy : y.toNat / 2 ^ n = 0 := Nat.div_eq_of_lt y.isLt
  simp [Compared, Comparison.start, hx, hy, hr]

/-- **The comparator invariant.**  A more significant difference decides; otherwise
the current bit does. -/
theorem Compared.step {s : Comparison w} {r b : ℕ} {x y : BitVec n} {p q : BitVec w}
    (h : Compared s r x y (b + 1)) (hr : r < w) (hp : p.getLsbD r = x.getLsbD b)
    (hq : q.getLsbD r = y.getLsbD b) : Compared (s.step p q) r x y b := by
  obtain ⟨hgt, heq⟩ := h
  have hx := toNat_div_two_pow x b
  have hy := toNat_div_two_pow y b
  simp only [Compared, Comparison.step, BitVec.getLsbD_or, BitVec.getLsbD_and,
    BitVec.getLsbD_not, BitVec.getLsbD_xor, hr, hp, hq, hgt, heq, decide_true, Bool.true_and]
  cases hxb : x.getLsbD b <;> cases hyb : y.getLsbD b <;>
    simp only [hxb, hyb, Bool.toNat_true, Bool.toNat_false] at hx hy <;>
    refine ⟨?_, ?_⟩ <;> rw [Bool.eq_iff_iff, hx, hy] <;> simp <;> omega

theorem Compared.gt_eq {s : Comparison w} {r : ℕ} {x y : BitVec n} (h : Compared s r x y 0) :
    s.gt.getLsbD r = decide (y < x) := by
  simpa [Compared, BitVec.lt_def] using h.1

namespace Comparison

/-- Compare through planes `k - 1` down to `0`. -/
def run (p q : ℕ → BitVec w) : ℕ → Comparison w → Comparison w
  | 0, s => s
  | k + 1, s => run p q k (s.step (p k) (q k))

end Comparison

theorem Compared.run {p q : ℕ → BitVec w} {r : ℕ} (hr : r < w) {x y : BitVec n}
    (hp : Shows p r x) (hq : Shows q r y) {k : ℕ} (hk : k ≤ n) {s : Comparison w}
    (h : Compared s r x y k) : Compared (Comparison.run p q k s) r x y 0 := by
  induction k generalizing s with
  | zero => exact h
  | succ k ih => exact ih (by omega) (h.step hr (hp k hk) (hq k hk))

/-- **A full comparison decides every lane.** -/
theorem run_gt {p q : ℕ → BitVec w} {r : ℕ} (hr : r < w) {x y : BitVec n} (hp : Shows p r x)
    (hq : Shows q r y) :
    (Comparison.run p q n .start).gt.getLsbD r = decide (y < x) :=
  ((Compared.start hr x y).run hr hp hq le_rfl).gt_eq

/-- All lanes at once hold the same number. -/
def broadcast (x : BitVec n) (b : ℕ) : BitVec w := if x.getLsbD b then BitVec.allOnes w else 0

theorem shows_broadcast (x : BitVec n) {r : ℕ} (hr : r < w) :
    Shows (broadcast x : ℕ → BitVec w) r x := by
  intro b _
  cases hb : x.getLsbD b <;> simp [broadcast, hb, hr]

theorem broadcast_of_false {x : BitVec n} {b : ℕ} (h : x.getLsbD b = false) :
    (broadcast x b : BitVec w) = 0 := by simp [broadcast, h]

theorem broadcast_of_true {x : BitVec n} {b : ℕ} (h : x.getLsbD b = true) :
    (broadcast x b : BitVec w) = BitVec.allOnes w := by simp [broadcast, h]

/-- A step against a clear plane. -/
theorem Comparison.step_zero (p : BitVec w) (s : Comparison w) :
    s.step p 0 = ⟨s.gt ||| (s.eq &&& p), s.eq &&& ~~~p⟩ := by
  ext i hi <;> simp [Comparison.step]

/-- A step against a plane of ones: nothing becomes greater. -/
theorem Comparison.step_allOnes (p : BitVec w) (s : Comparison w) :
    s.step p (BitVec.allOnes w) = ⟨s.gt, s.eq &&& p⟩ := by
  ext i hi <;> simp [Comparison.step]

/-! ## Addition -/

/-- The sum plane of a full adder. -/
def sumPlane (a b c : BitVec w) : BitVec w := a ^^^ b ^^^ c

/-- The carry plane of a full adder. -/
def carryPlane (a b c : BitVec w) : BitVec w := (a &&& b) ||| ((a ^^^ b) &&& c)

section Lane

variable {a b c : BitVec w} {r i : ℕ} {x y : BitVec n} {c₀ : Bool}

theorem sum_lane (hi : i < n) (ha : a.getLsbD r = x.getLsbD i) (hb : b.getLsbD r = y.getLsbD i)
    (hc : c.getLsbD r = BitVec.carry i x y c₀) :
    (sumPlane a b c).getLsbD r = (x + y + (BitVec.ofBool c₀).setWidth n).getLsbD i := by
  rw [BitVec.getLsbD_add_add_bool hi, sumPlane, BitVec.getLsbD_xor, BitVec.getLsbD_xor, ha, hb, hc,
    Bool.xor_assoc]

theorem carry_lane (ha : a.getLsbD r = x.getLsbD i) (hb : b.getLsbD r = y.getLsbD i)
    (hc : c.getLsbD r = BitVec.carry i x y c₀) :
    (carryPlane a b c).getLsbD r = BitVec.carry (i + 1) x y c₀ := by
  rw [BitVec.carry_succ, carryPlane, BitVec.getLsbD_or, BitVec.getLsbD_and, BitVec.getLsbD_and,
    BitVec.getLsbD_xor, ha, hb, hc]
  cases x.getLsbD i <;> cases y.getLsbD i <;> cases BitVec.carry i x y c₀ <;> rfl

end Lane

/-- Adding the complement with a carry is subtraction. -/
theorem add_not_add_one (x y : BitVec n) :
    x + ~~~y + (BitVec.ofBool true).setWidth n = x - y := by
  have hone : (BitVec.ofBool true).setWidth n = 1#n := by
    apply BitVec.eq_of_toNat_eq
    simp
  rw [hone, BitVec.sub_eq_add_neg, BitVec.neg_eq_not_add, BitVec.add_assoc]

/-- Without the carry it is one less. -/
theorem add_not_add_zero (x y : BitVec n) :
    x + ~~~y + (BitVec.ofBool false).setWidth n = x - y - 1#n := by
  have hzero : (BitVec.ofBool false).setWidth n = 0#n := by
    apply BitVec.eq_of_toNat_eq
    simp
  rw [hzero, BitVec.add_zero, ← add_not_add_one x y,
    show (BitVec.ofBool true).setWidth n = 1#n from by apply BitVec.eq_of_toNat_eq; simp,
    BitVec.add_sub_cancel]

theorem add_add_false (x y : BitVec n) :
    x + y + (BitVec.ofBool false).setWidth n = x + y := by
  have hzero : (BitVec.ofBool false).setWidth n = 0#n := by
    apply BitVec.eq_of_toNat_eq
    simp
  rw [hzero, BitVec.add_zero]

end BitPlane
