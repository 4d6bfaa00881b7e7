import ApexEngine.BitPlane.Arith
import ApexEngine.Machine.A64
import ApexEngine.Machine.Loop
import Mathlib.Tactic.Ring
import Mathlib.Data.Nat.Log

/-!
# `BitSlicer`

A column buffer of 64 words is a 64 by 64 bit matrix, and slicing transposes it in
place.  There are six stages; the stage of stride `s` exchanges, between rows `k`
and `k + s`, the bits of row `k` at positions with digit `s` set and the bits of
row `k + s` at positions with it clear.

Each stage but the last works on vectors: it loads `N` rows, their `N` partners,
computes lane by lane and stores both, with `N` the number of lanes the hardware
has for the stage's capped tag.  A `BitSlicer` carries these numbers with what a
capped tag promises, that they are powers of two and at most the cap.

`bitAt_stage` describes a stage: the bit it leaves at `(row, bit)` comes from the
place where the two indices have exchanged their digit `s` (`swapDigit`).  Six
stages exchange all six digits, which is the transpose (`slice_getLsbD`).  The
number of lanes does not appear in the result.

The engine slices a buffer into itself.  The last part of the file has the buffers in a
memory where the two references may be the same one (`sliceInto_transposes`).
-/

namespace ApexEngine
namespace Compute

open A64 (Word)

/-- `compute::ColumnBuffer`: the words `data[0]` to `data[63]`. -/
abbrev ColumnBuffer := ℕ → Word

/-- `compute::BitSlicer`, with the number of lanes of each capped tag. -/
structure BitSlicer where
  lanes : ℕ → ℕ
  lanes_pow : ∀ cap, ∃ e, lanes cap = 2 ^ e
  lanes_le : ∀ cap, 0 < cap → lanes cap ≤ cap

/-! ## The code -/

/-- The word both partners of a lane are changed by. -/
def exchange (shift : ℕ) (mask va vb : Word) : Word := ((va >>> shift) ^^^ vb) &&& mask

/-- The body of a stage's loop at `k`: `N` lanes of rows `k` and `k + stride`. -/
def swapLanes (N stride : ℕ) (mask : Word) (k : ℕ) (A : ColumnBuffer) : ColumnBuffer := fun i =>
  if k ≤ i ∧ i < k + N then
    A i ^^^ (exchange stride mask (A i) (A (i + stride)) <<< stride)
  else if k + stride ≤ i ∧ i < k + stride + N then
    A i ^^^ exchange stride mask (A (i - stride)) (A i)
  else A i

/-- A stage: the blocks of `2 * stride` rows, and in each the vectors of the first
`stride`. -/
def stage (N stride : ℕ) (mask : Word) (A : ColumnBuffer) : ColumnBuffer :=
  Loop.forUp 0 64 (2 * stride)
    (fun block A => Loop.forUp block (block + stride) N (swapLanes N stride mask) A) A

/-- Hardware without vectors. -/
def BitSlicer.portable : BitSlicer where
  lanes _ := 1
  lanes_pow _ := ⟨0, rfl⟩
  lanes_le _ h := h

namespace BitSlicer

variable (b : BitSlicer)

def stage5 : ColumnBuffer → ColumnBuffer := stage (b.lanes 32) 32 0x00000000FFFFFFFF
def stage4 : ColumnBuffer → ColumnBuffer := stage (b.lanes 16) 16 0x0000FFFF0000FFFF
def stage3 : ColumnBuffer → ColumnBuffer := stage (b.lanes 8) 8 0x00FF00FF00FF00FF
def stage2 : ColumnBuffer → ColumnBuffer := stage (b.lanes 4) 4 0x0F0F0F0F0F0F0F0F
def stage1 : ColumnBuffer → ColumnBuffer := stage (b.lanes 2) 2 0x3333333333333333

/-- The last stage is scalar. -/
def stage0 : ColumnBuffer → ColumnBuffer := stage 1 1 0x5555555555555555

/-- `Transpose64x64`. -/
def transpose64x64 (A : ColumnBuffer) : ColumnBuffer :=
  stage0 (b.stage1 (b.stage2 (b.stage3 (b.stage4 (b.stage5 A)))))

/-- `BitSlicer::slice`: the input is copied to the output, which is transposed in
place. -/
def slice (A : ColumnBuffer) : ColumnBuffer := b.transpose64x64 A

end BitSlicer

/-! ## What a stage does to the rows -/

/-- The rows a stage has in the first half of a block. -/
def IsLow (stride i : ℕ) : Prop := i % (2 * stride) < stride

instance (stride i : ℕ) : Decidable (IsLow stride i) := inferInstanceAs (Decidable (_ < _))

/-- A row after a stage. -/
def exchanged (stride : ℕ) (mask : Word) (A : ColumnBuffer) : ColumnBuffer := fun i =>
  if IsLow stride i then A i ^^^ (exchange stride mask (A i) (A (i + stride)) <<< stride)
  else A i ^^^ exchange stride mask (A (i - stride)) (A i)

/-- The rows below `p` and their partners are done, the others untouched. -/
def Exchanged (stride : ℕ) (mask : Word) (A : ColumnBuffer) (p : ℕ) (B : ColumnBuffer) : Prop :=
  ∀ i, B i =
    if (IsLow stride i ∧ i < p) ∨ (¬ IsLow stride i ∧ i < p + stride) then
      exchanged stride mask A i
    else A i

/-- Rows are ordered by block first. -/
theorem block_lt_or_eq_or_gt (m i p : ℕ) :
    m * (i / m) + m ≤ m * (p / m) ∨ m * (i / m) = m * (p / m) ∨
      m * (p / m) + m ≤ m * (i / m) := by
  rcases Nat.lt_trichotomy (i / m) (p / m) with h | h | h
  · exact Or.inl (by rw [← Nat.mul_succ]; exact Nat.mul_le_mul_left m h)
  · exact Or.inr (Or.inl (by rw [h]))
  · exact Or.inr (Or.inr (by rw [← Nat.mul_succ]; exact Nat.mul_le_mul_left m h))

section Stage

variable {N stride : ℕ} {mask : Word} {A : ColumnBuffer}

/-- The rows of a vector that fits in the first half of its block are low rows. -/
theorem isLow_of_mem {i p : ℕ} (hp : p % (2 * stride) + N ≤ stride) (h₁ : p ≤ i)
    (h₂ : i < p + N) : IsLow stride i := by
  have hi := Nat.div_add_mod i (2 * stride)
  have hpm := Nat.div_add_mod p (2 * stride)
  have hlt : i % (2 * stride) < 2 * stride := Nat.mod_lt _ (by omega)
  rw [IsLow]
  rcases block_lt_or_eq_or_gt (2 * stride) i p with h | h | h <;> omega

/-- The partner of a lane that is exchanged is not a low one. -/
theorem not_isLow_of_mem {i p : ℕ} (hp : p % (2 * stride) + N ≤ stride) (h₁ : p + stride ≤ i)
    (h₂ : i < p + stride + N) : ¬ IsLow stride i := by
  have hi := Nat.div_add_mod i (2 * stride)
  have hpm := Nat.div_add_mod p (2 * stride)
  have hlt : i % (2 * stride) < 2 * stride := Nat.mod_lt _ (by omega)
  rw [IsLow]
  rcases block_lt_or_eq_or_gt (2 * stride) i p with h | h | h <;> omega

theorem Exchanged.eq_of_isLow {p i : ℕ} {B : ColumnBuffer} (h : Exchanged stride mask A p B)
    (hi : IsLow stride i) (hp : p ≤ i) : B i = A i := by
  rw [h i, if_neg]
  rintro (⟨_, hlt⟩ | ⟨hnot, _⟩)
  · omega
  · exact hnot hi

theorem Exchanged.eq_of_not_isLow {p i : ℕ} {B : ColumnBuffer}
    (h : Exchanged stride mask A p B) (hi : ¬ IsLow stride i) (hp : p + stride ≤ i) :
    B i = A i := by
  rw [h i, if_neg]
  rintro (⟨hlow, _⟩ | ⟨_, hlt⟩)
  · exact hi hlow
  · omega

/-- One vector: `N` more rows are done. -/
theorem Exchanged.vector {p : ℕ} {B : ColumnBuffer} (h : Exchanged stride mask A p B)
    (hp : p % (2 * stride) + N ≤ stride) :
    Exchanged stride mask A (p + N) (swapLanes N stride mask p B) := by
  intro i
  rw [swapLanes]
  by_cases hlow : p ≤ i ∧ i < p + N
  · have hi := isLow_of_mem hp hlow.1 hlow.2
    have hi' : ¬ IsLow stride (i + stride) := not_isLow_of_mem hp (by omega) (by omega)
    rw [if_pos hlow, if_pos (Or.inl ⟨hi, hlow.2⟩), exchanged, if_pos hi, h.eq_of_isLow hi hlow.1,
      h.eq_of_not_isLow hi' (by omega)]
  · rw [if_neg hlow]
    by_cases hhigh : p + stride ≤ i ∧ i < p + stride + N
    · have hi := not_isLow_of_mem hp hhigh.1 hhigh.2
      have hi' : IsLow stride (i - stride) := isLow_of_mem hp (by omega) (by omega)
      rw [if_pos hhigh, if_pos (Or.inr ⟨hi, by omega⟩), exchanged, if_neg hi,
        h.eq_of_not_isLow hi hhigh.1, h.eq_of_isLow hi' (by omega)]
    · rw [if_neg hhigh, h i]
      congr 1
      rw [eq_iff_iff]
      by_cases hi : IsLow stride i
      · simp only [hi, true_and, not_true_eq_false, false_and, or_false]
        omega
      · simp only [hi, true_and, not_false_eq_true, false_and, false_or]
        omega

/-- The inner loop exchanges the lanes of one block. -/
theorem Exchanged.block {p : ℕ} {B : ColumnBuffer} (hN : 0 < N) (hdvd : N ∣ stride)
    (h : Exchanged stride mask A p B) (hp : p % (2 * stride) = 0) :
    Exchanged stride mask A (p + 2 * stride)
      (Loop.forUp p (p + stride) N (swapLanes N stride mask) B) := by
  obtain ⟨q, hq⟩ := Nat.dvd_of_mod_eq_zero hp
  obtain ⟨c, hc⟩ := hdvd
  have hinner : Exchanged stride mask A (p + stride)
      (Loop.forUp p (p + stride) N (swapLanes N stride mask) B) := by
    refine Loop.forUp_inv_of_dvd (P := Exchanged stride mask A) hN (by omega)
      (by rw [Nat.add_sub_cancel_left]; exact ⟨c, hc⟩) h ?_
    rintro k B' hk ⟨j, rfl⟩ hB'
    -- the vectors of a block are whole: one that starts in the first half ends in it
    have hj : (j + 1) * N ≤ stride := by
      have hjN : N * j < N * c := by rw [← hc, Nat.mul_comm N j]; omega
      have : j < c := Nat.lt_of_mul_lt_mul_left hjN
      rw [hc, Nat.mul_comm N c]
      exact Nat.mul_le_mul_right N this
    rw [Nat.succ_mul] at hj
    refine hB'.vector ?_
    rw [hq, Nat.mul_add_mod, Nat.mod_eq_of_lt (by omega)]
    exact hj
  intro i
  rw [hinner i]
  congr 1
  rw [eq_iff_iff]
  have hi := Nat.div_add_mod i (2 * stride)
  have hpm := Nat.div_add_mod p (2 * stride)
  have hlt : i % (2 * stride) < 2 * stride ∨ stride = 0 := by
    rcases Nat.eq_zero_or_pos stride with h0 | h0
    · exact Or.inr h0
    · exact Or.inl (Nat.mod_lt _ (by omega))
  by_cases hlow : IsLow stride i
  · simp only [hlow, true_and, not_true_eq_false, false_and, or_false]
    rw [IsLow] at hlow
    rcases block_lt_or_eq_or_gt (2 * stride) i p with h | h | h <;> omega
  · simp only [hlow, true_and, not_false_eq_true, false_and, false_or]
    rw [IsLow] at hlow
    rcases block_lt_or_eq_or_gt (2 * stride) i p with h | h | h <;> omega

/-- **A stage exchanges all its rows.** -/
theorem stage_eq (hN : 0 < N) (hs : 0 < stride) (hdvd : N ∣ stride) (h64 : 2 * stride ∣ 64)
    {i : ℕ} (hi : i < 64) : stage N stride mask A i = exchanged stride mask A i := by
  have houter : Exchanged stride mask A 64 (stage N stride mask A) ∧ 64 % (2 * stride) = 0 := by
    have h0 : Exchanged stride mask A 0 A ∧ 0 % (2 * stride) = 0 := by
      refine ⟨fun j => ?_, Nat.zero_mod _⟩
      rw [if_neg]
      rintro (⟨_, hlt⟩ | ⟨hhigh, hlt⟩)
      · omega
      · exact hhigh (by rw [IsLow, Nat.mod_eq_of_lt (by omega)]; omega)
    refine Loop.forUp_inv_of_dvd
      (P := fun p B => Exchanged stride mask A p B ∧ p % (2 * stride) = 0) (by omega)
      (by omega) h64 h0 ?_
    exact fun p B _ _ hB => ⟨hB.1.block hN hdvd hB.2, by rw [Nat.add_mod_right]; exact hB.2⟩
  rw [houter.1 i, if_pos]
  by_cases hlow : IsLow stride i
  · exact Or.inl ⟨hlow, hi⟩
  · exact Or.inr ⟨hlow, by omega⟩

end Stage

/-! ## What a stage does to the bits -/

/-- Exchange the digit of weight `s` of a row and a bit position. -/
def swapDigit (s : ℕ) (p : ℕ × ℕ) : ℕ × ℕ :=
  if IsLow s p.1 ∧ ¬ IsLow s p.2 then (p.1 + s, p.2 - s)
  else if ¬ IsLow s p.1 ∧ IsLow s p.2 then (p.1 - s, p.2 + s)
  else p

/-- The bit at a place of the matrix. -/
def bitAt (A : ColumnBuffer) (p : ℕ × ℕ) : Bool := (A p.1).getLsbD p.2

section Bits

variable {N stride : ℕ} {mask : Word} {A : ColumnBuffer}

/-- The mask of a stage selects the positions whose digit is clear. -/
def IsMask (stride : ℕ) (mask : Word) : Prop :=
  ∀ b < 64, mask.getLsbD b = decide (IsLow stride b)

theorem isLow_sub {b : ℕ} (hs : 0 < stride) (hb : ¬ IsLow stride b) :
    IsLow stride (b - stride) := by
  unfold IsLow at *
  have hlt : b % (2 * stride) < 2 * stride := Nat.mod_lt _ (by omega)
  have hdm := Nat.div_add_mod b (2 * stride)
  have hsub : b - stride = 2 * stride * (b / (2 * stride)) + (b % (2 * stride) - stride) := by
    omega
  rw [hsub, Nat.mul_add_mod, Nat.mod_eq_of_lt (by omega)]
  omega

theorem not_isLow_sub {b : ℕ} (hb : IsLow stride b) (hle : stride ≤ b) :
    ¬ IsLow stride (b - stride) := by
  intro hsub
  unfold IsLow at *
  have h := Nat.add_mod (b - stride) stride (2 * stride)
  rw [Nat.sub_add_cancel hle, Nat.mod_eq_of_lt (a := stride) (by omega),
    Nat.mod_eq_of_lt (a := (b - stride) % (2 * stride) + stride) (by omega)] at h
  omega

/-- A bit after a stage comes from the place with the digits exchanged. -/
theorem bitAt_exchanged (hmask : IsMask stride mask) (hs : 0 < stride) {i b : ℕ} (hb : b < 64) :
    bitAt (exchanged stride mask A) (i, b) = bitAt A (swapDigit stride (i, b)) := by
  unfold bitAt exchanged swapDigit exchange
  by_cases hi : IsLow stride i
  · by_cases hlow : IsLow stride b
    · -- the exchanged word has no bit at a clear digit
      have hclear : ¬ b < stride → mask.getLsbD (b - stride) = false := fun hle => by
        rw [hmask _ (by omega), decide_eq_false (not_isLow_sub hlow (by omega))]
      by_cases hle : b < stride
      · simp [hi, hlow, hle]
      · simp [hi, hlow, hle, hclear hle]
    · have hle : stride ≤ b := by
        by_contra hlt
        exact hlow (by rw [IsLow, Nat.mod_eq_of_lt (by omega)]; omega)
      have hset : mask.getLsbD (b - stride) = true := by
        rw [hmask _ (by omega), decide_eq_true (isLow_sub hs hlow)]
      simp only [hi, hlow, if_true, not_false_eq_true, and_self, BitVec.getLsbD_xor,
        BitVec.getLsbD_shiftLeft, hb, show ¬ b < stride by omega, decide_true, decide_false,
        Bool.not_false, Bool.true_and, BitVec.getLsbD_and, BitVec.getLsbD_ushiftRight, hset,
        Bool.and_true, show stride + (b - stride) = b by omega]
      rw [← Bool.xor_assoc, Bool.xor_self, Bool.false_xor]
  · by_cases hlow : IsLow stride b
    · simp only [hi, hlow, if_true, if_false, not_false_eq_true, and_self, not_true_eq_false,
        BitVec.getLsbD_xor, BitVec.getLsbD_and, BitVec.getLsbD_ushiftRight, hmask b hb,
        decide_true, Bool.and_true, Nat.add_comm stride b]
      rw [Bool.xor_comm, Bool.xor_assoc, Bool.xor_self, Bool.xor_false]
    · simp [hi, hlow, hmask b hb]

/-- The places of the matrix stay in the matrix. -/
theorem swapDigit_lt (h64 : 2 * stride ∣ 64) {p : ℕ × ℕ} (h₁ : p.1 < 64) (h₂ : p.2 < 64) :
    (swapDigit stride p).1 < 64 ∧ (swapDigit stride p).2 < 64 := by
  -- a position with the digit clear has room for it in its block
  have room : ∀ i, i < 64 → IsLow stride i → i + stride < 64 := by
    intro i hi hlow
    obtain ⟨q, hq⟩ := h64
    unfold IsLow at hlow
    have hdm := Nat.div_add_mod i (2 * stride)
    have hlt : i / (2 * stride) < q := Nat.div_lt_of_lt_mul (by omega)
    have hle : 2 * stride * (i / (2 * stride)) + 2 * stride ≤ 2 * stride * q := by
      rw [← Nat.mul_succ]
      exact Nat.mul_le_mul_left _ hlt
    omega
  unfold swapDigit
  split
  · rename_i h
    exact ⟨room _ h₁ h.1, by simp only; omega⟩
  · split
    · rename_i h
      exact ⟨by simp only; omega, room _ h₂ h.2⟩
    · exact ⟨h₁, h₂⟩

/-- The indices with their digits below `s` exchanged. -/
def mixed (s i r : ℕ) : ℕ × ℕ := (i / s * s + r % s, r / s * s + i % s)

theorem mixed_isLow {s u y : ℕ} (hs : 0 < s) (hy : y < s) :
    IsLow s (u * s + y) ↔ u % 2 = 0 := by
  have hdiv : (u * s + y) / s = u := by
    rw [Nat.mul_comm, Nat.mul_add_div hs, Nat.div_eq_of_lt hy, Nat.add_zero]
  have hmod : (u * s + y) % s = y := by
    rw [Nat.mul_comm, Nat.mul_add_mod, Nat.mod_eq_of_lt hy]
  rw [IsLow, Nat.mul_comm 2 s, Nat.mod_mul, hdiv, hmod]
  rcases Nat.mod_two_eq_zero_or_one u with h | h
  · simp [h, hy]
  · simp [h]

/-- An exchange of one more digit. -/
theorem swapDigit_mixed {s : ℕ} (hs : 0 < s) (i r : ℕ) :
    swapDigit s (mixed s i r) = mixed (2 * s) i r := by
  have hx : i % s < s := Nat.mod_lt _ hs
  have hy : r % s < s := Nat.mod_lt _ hs
  have hdiv : ∀ u, u / s * s = u / (2 * s) * (2 * s) + u / s % 2 * s := by
    intro u
    have := Nat.div_add_mod (u / s) 2
    rw [Nat.div_div_eq_div_mul, Nat.mul_comm s 2] at this
    calc u / s * s = (2 * (u / (2 * s)) + u / s % 2) * s := by rw [this]
      _ = u / (2 * s) * (2 * s) + u / s % 2 * s := by ring
  have hmod : ∀ u, u % (2 * s) = u % s + s * (u / s % 2) := fun u => by
    rw [Nat.mul_comm 2 s, Nat.mod_mul]
  unfold swapDigit mixed
  simp only [mixed_isLow hs hy, mixed_isLow hs hx]
  rw [hmod i, hmod r, hdiv i, hdiv r]
  rcases Nat.mod_two_eq_zero_or_one (i / s) with hu | hu <;>
    rcases Nat.mod_two_eq_zero_or_one (r / s) with hv | hv <;>
    simp only [hu, hv] <;> simp <;> omega

/-- Six exchanges exchange the indices. -/
theorem swapDigits_eq {i r : ℕ} (hi : i < 64) (hr : r < 64) :
    swapDigit 32 (swapDigit 16 (swapDigit 8 (swapDigit 4 (swapDigit 2
      (swapDigit 1 (i, r)))))) = (r, i) := by
  have h1 : (i, r) = mixed 1 i r := by simp [mixed, Nat.mod_one]
  rw [h1, swapDigit_mixed (by omega), swapDigit_mixed (by omega), swapDigit_mixed (by omega),
    swapDigit_mixed (by omega), swapDigit_mixed (by omega), swapDigit_mixed (by omega)]
  simp [mixed, Nat.div_eq_of_lt hi, Nat.div_eq_of_lt hr, Nat.mod_eq_of_lt hi, Nat.mod_eq_of_lt hr]

/-- A number of lanes that is a power of two and at most the stride divides it. -/
theorem pow_dvd_of_le {e k : ℕ} (h : 2 ^ e ≤ 2 ^ k) : 2 ^ e ∣ 2 ^ k :=
  pow_dvd_pow 2 ((Nat.pow_le_pow_iff_right (by omega)).mp h)

/-- **A stage exchanges one digit of rows and positions.** -/
theorem bitAt_stage (hmask : IsMask stride mask) (hN : 0 < N) (hs : 0 < stride)
    (hdvd : N ∣ stride) (h64 : 2 * stride ∣ 64) {p : ℕ × ℕ} (h₁ : p.1 < 64) (h₂ : p.2 < 64) :
    bitAt (stage N stride mask A) p = bitAt A (swapDigit stride p) := by
  rw [← bitAt_exchanged hmask hs h₂, bitAt, stage_eq hN hs hdvd h64 h₁]
  rfl

end Bits

/-! ## The transpose -/

namespace BitSlicer

variable (b : BitSlicer)

theorem lanes_pos (cap : ℕ) : 0 < b.lanes cap := by
  obtain ⟨e, he⟩ := b.lanes_pow cap
  rw [he]
  exact Nat.two_pow_pos e

/-- The lanes of a capped tag divide the cap. -/
theorem lanes_dvd {cap : ℕ} (k : ℕ) (hcap : cap = 2 ^ k) : b.lanes cap ∣ cap := by
  obtain ⟨e, he⟩ := b.lanes_pow cap
  have hle := b.lanes_le cap (by rw [hcap]; exact Nat.two_pow_pos k)
  rw [he, hcap] at hle
  rw [he, hcap]
  exact pow_dvd_of_le hle

/-- **Slicing is the transpose**, whatever vectors the hardware has. -/
theorem slice_getLsbD (A : ColumnBuffer) {i r : ℕ} (hi : i < 64) (hr : r < 64) :
    (b.slice A i).getLsbD r = (A r).getLsbD i := by
  have h0 := swapDigit_lt (show 2 * 1 ∣ 64 by decide) (p := (i, r)) hi hr
  have h1 := swapDigit_lt (show 2 * 2 ∣ 64 by decide) h0.1 h0.2
  have h2 := swapDigit_lt (show 2 * 4 ∣ 64 by decide) h1.1 h1.2
  have h3 := swapDigit_lt (show 2 * 8 ∣ 64 by decide) h2.1 h2.2
  have h4 := swapDigit_lt (show 2 * 16 ∣ 64 by decide) h3.1 h3.2
  show bitAt (b.slice A) (i, r) = bitAt A (r, i)
  rw [slice, transpose64x64, stage0,
    bitAt_stage (by unfold IsMask; decide) (by omega) (by omega) (by decide) (by decide) hi hr,
    stage1, bitAt_stage (by unfold IsMask; decide) (b.lanes_pos 2) (by omega) (b.lanes_dvd 1 rfl)
      (by decide) h0.1 h0.2,
    stage2, bitAt_stage (by unfold IsMask; decide) (b.lanes_pos 4) (by omega) (b.lanes_dvd 2 rfl)
      (by decide) h1.1 h1.2,
    stage3, bitAt_stage (by unfold IsMask; decide) (b.lanes_pos 8) (by omega) (b.lanes_dvd 3 rfl)
      (by decide) h2.1 h2.2,
    stage4, bitAt_stage (by unfold IsMask; decide) (b.lanes_pos 16) (by omega) (b.lanes_dvd 4 rfl)
      (by decide) h3.1 h3.2,
    stage5, bitAt_stage (by unfold IsMask; decide) (b.lanes_pos 32) (by omega) (b.lanes_dvd 5 rfl)
      (by decide) h4.1 h4.2, swapDigits_eq hi hr]

/-- The planes of a sliced column show its rows. -/
theorem shows_slice (A : ColumnBuffer) {r : ℕ} (hr : r < 64) :
    BitPlane.Shows (b.slice A) r (A r) := fun _ hi => b.slice_getLsbD A hi hr

end BitSlicer

/-! ## Slicing in memory -/

/-- A reference to a column buffer.  Two references are the same buffer, or two buffers that
share nothing. -/
abbrev BufferRef := ℕ

/-- The column buffers in memory. -/
abbrev Buffers := BufferRef → ColumnBuffer

/-- `memcpy` of a whole buffer, a word at a time. -/
def Buffers.memcpy (mem : Buffers) (out inp : BufferRef) : Buffers :=
  Loop.forUp 0 64 1
    (fun i mem => Function.update mem out (Function.update (mem out) i (mem inp i))) mem

/-- `BitSlicer::slice` on references: `Slice_impl`. -/
def BitSlicer.sliceInto (b : BitSlicer) (inp out : BufferRef) (mem : Buffers) : Buffers :=
  let mem := mem.memcpy out inp
  Function.update mem out (b.transpose64x64 (mem out))

/-- The words below `p` are copied, and nothing else is changed. -/
structure Copied (mem : Buffers) (out inp : BufferRef) (p : ℕ) (mem' : Buffers) : Prop where
  data : ∀ i, mem' out i = if i < p then mem inp i else mem out i
  rest : ∀ o, o ≠ out → mem' o = mem o

/-- One word.  The source still has it, also when it is the buffer that is written. -/
theorem Copied.step {mem mem' : Buffers} {out inp : BufferRef} {p : ℕ}
    (h : Copied mem out inp p mem') :
    Copied mem out inp (p + 1)
      (Function.update mem' out (Function.update (mem' out) p (mem' inp p))) := by
  have hsource : mem' inp p = mem inp p := by
    by_cases hio : inp = out
    · subst hio
      rw [h.data p, if_neg (Nat.lt_irrefl p)]
    · rw [h.rest inp hio]
  constructor
  · intro i
    rw [Function.update_self, hsource]
    by_cases hi : i = p
    · subst hi
      rw [Function.update_self, if_pos (Nat.lt_succ_self i)]
    · rw [Function.update_of_ne hi, h.data i]
      have hiff : i < p ↔ i < p + 1 := by omega
      simp only [hiff]
  · intro o ho
    rw [Function.update_of_ne ho]
    exact h.rest o ho

theorem copied_memcpy (mem : Buffers) (out inp : BufferRef) :
    Copied mem out inp 64 (mem.memcpy out inp) := by
  refine Loop.forUp_inv_of_dvd (P := Copied mem out inp) (by omega) (by omega) (one_dvd _)
    ⟨fun i => by rw [if_neg (Nat.not_lt_zero i)], fun _ _ => rfl⟩ ?_
  exact fun _ _ _ _ h => h.step

/-- What slicing leaves in the buffer it writes. -/
theorem BitSlicer.sliceInto_getLsbD (b : BitSlicer) (inp out : BufferRef) (mem : Buffers)
    {i r : ℕ} (hi : i < 64) (hr : r < 64) :
    (b.sliceInto inp out mem out i).getLsbD r = (mem inp r).getLsbD i := by
  have hcopy := (copied_memcpy mem out inp).data r
  rw [if_pos hr] at hcopy
  rw [BitSlicer.sliceInto, Function.update_self, ← hcopy]
  exact b.slice_getLsbD _ hi hr

/-- **Slicing transposes a buffer into another or into itself.**  What it leaves does not
depend on the vectors, slicing the result restores the input, and no other buffer is
changed. -/
theorem sliceInto_transposes (b b' : BitSlicer) (inp out out' o : BufferRef) (mem : Buffers)
    (i r : Fin 64) :
    (b.sliceInto inp out mem out i).getLsbD r = (mem inp r).getLsbD i ∧
      b.sliceInto inp out mem out i = b'.sliceInto inp out mem out i ∧
      b'.sliceInto out out' (b.sliceInto inp out mem) out' i = mem inp i ∧
      (o = out ∨ b.sliceInto inp out mem o = mem o) := by
  refine ⟨b.sliceInto_getLsbD inp out mem i.isLt r.isLt, ?_, ?_, ?_⟩
  · refine BitVec.eq_of_getLsbD_eq fun k hk => ?_
    rw [b.sliceInto_getLsbD inp out mem i.isLt hk, b'.sliceInto_getLsbD inp out mem i.isLt hk]
  · refine BitVec.eq_of_getLsbD_eq fun k hk => ?_
    rw [b'.sliceInto_getLsbD out out' _ i.isLt hk, b.sliceInto_getLsbD inp out mem hk i.isLt]
  · refine or_iff_not_imp_left.mpr fun ho => ?_
    rw [BitSlicer.sliceInto, Function.update_of_ne ho]
    exact (copied_memcpy mem out inp).rest o ho

end Compute
end ApexEngine
