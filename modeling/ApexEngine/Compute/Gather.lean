import ApexEngine.Compute.BitSlicer
import ApexEngine.Core.Registry
import Mathlib.Data.Nat.Digits.Defs

/-!
# Gathering a field

A dataset is the bytes behind a pointer.  Row `i` of it starts `i * stride` bytes on,
and a field is read as the little-endian word at its offset, whatever its declared
width.  `gather` copies the field of up to 64 rows into a column buffer, four rows at a
time and then one by one, and fills the rest of the buffer with zeros
(`gather_apply`).  What it reads of the dataset on the way is eight bytes for every row
(`mem_gatherFieldReads`).

Row counts, strides and offsets are natural numbers here: a row that exists lies in the
address space, so nothing computed from them wraps around.
-/

namespace ApexEngine
namespace Compute

open A64 (Word)
open Core (FieldDescriptor)

/-- The bytes behind a data pointer. -/
abbrev Data := ℕ → UInt8

/-- `memcpy(&v, data + a, 8)` on a little-endian machine. -/
def memcpy8 (data : Data) (a : ℕ) : Word :=
  BitVec.ofNat 64 (Nat.ofDigits 256 ((List.range 8).map fun k => (data (a + k)).toNat))

/-- The unrolled body: four rows from `i` on. -/
def gatherFour (word : ℕ → Word) (i : ℕ) (out : ColumnBuffer) : ColumnBuffer :=
  let v0 := word (i + 0)
  let v1 := word (i + 1)
  let v2 := word (i + 2)
  let v3 := word (i + 3)
  Function.update (Function.update (Function.update (Function.update out
    (i + 0) v0) (i + 1) v1) (i + 2) v2) (i + 3) v3

/-- The three loops of a gather: `i + 4 <= rows` in steps of four, `i < rows` by one,
and zeros up to 64. -/
def gather (word : ℕ → Word) (rows : ℕ) (out : ColumnBuffer) : ColumnBuffer :=
  let i := Loop.last 0 (rows - 3) 4
  let out := Loop.forUp 0 (rows - 3) 4 (gatherFour word) out
  let out := Loop.forUp i rows 1 (fun i out => Function.update out i (word i)) out
  let i := Loop.last i rows 1
  Loop.forUp i 64 1 (fun i out => Function.update out i 0) out

/-- `ApexEngine::gather_field`, at the pointer `data + ptr`. -/
def gatherField (data : Data) (ptr : ℕ) (field : FieldDescriptor) (rowStride rowCount : ℕ)
    (out : ColumnBuffer) : ColumnBuffer :=
  gather (fun i => memcpy8 data (ptr + i * rowStride + field.offset.toNat)) (min rowCount 64) out

/-- The buffer with the entries below `i` replaced. -/
def Filled (word : ℕ → Word) (out : ColumnBuffer) (i : ℕ) (out' : ColumnBuffer) : Prop :=
  ∀ j, out' j = if j < i then word j else out j

section Gather

variable {word : ℕ → Word} {out out' : ColumnBuffer} {i rows : ℕ}

theorem Filled.update (h : Filled word out i out') :
    Filled word out (i + 1) (Function.update out' i (word i)) := by
  intro j
  by_cases hj : j = i
  · subst hj
    rw [Function.update_self, if_pos (Nat.lt_succ_self j)]
  · rw [Function.update_of_ne hj, h j]
    exact if_congr (by omega) rfl rfl

theorem Filled.four (h : Filled word out i out') : Filled word out (i + 4) (gatherFour word i out') :=
  h.update.update.update.update

/-- Where the unrolled loop stops, at most three rows are left. -/
theorem last_four (rows : ℕ) : Loop.last 0 (rows - 3) 4 = rows / 4 * 4 := by
  rw [Loop.last, Loop.trips]
  omega

/-- **What a gather leaves in the buffer.** -/
theorem gather_apply (hrows : rows ≤ 64) (j : ℕ) :
    gather word rows out j = if j < 64 then (if j < rows then word j else 0) else out j := by
  have h4 : Filled word out (Loop.last 0 (rows - 3) 4)
      (Loop.forUp 0 (rows - 3) 4 (gatherFour word) out) :=
    Loop.forUp_inv (P := Filled word out) (by omega) (fun j => by simp)
      fun i s _ _ hs => hs.four
  have hle : Loop.last 0 (rows - 3) 4 ≤ rows := by
    rw [last_four]
    omega
  have h1 : Filled word out rows
      (Loop.forUp (Loop.last 0 (rows - 3) 4) rows 1 (fun i out => Function.update out i (word i))
        (Loop.forUp 0 (rows - 3) 4 (gatherFour word) out)) :=
    Loop.forUp_inv_of_dvd (P := Filled word out) Nat.one_pos hle (Nat.one_dvd _) h4
      fun i s _ _ hs => hs.update
  have hlast : Loop.last (Loop.last 0 (rows - 3) 4) rows 1 = rows :=
    Loop.last_of_dvd hle (Nat.one_dvd _)
  -- the zeros continue the same invariant, for the words followed by zeros
  have h0 : Filled (fun j => if j < rows then word j else 0) out rows
      (Loop.forUp (Loop.last 0 (rows - 3) 4) rows 1 (fun i out => Function.update out i (word i))
        (Loop.forUp 0 (rows - 3) 4 (gatherFour word) out)) := by
    intro j
    rw [h1 j]
    by_cases hj : j < rows
    · simp only [hj, if_true]
    · simp only [hj, if_false]
  unfold gather
  simp only [hlast]
  refine Loop.forUp_inv_of_dvd (P := Filled (fun j => if j < rows then word j else 0) out)
    Nat.one_pos hrows (Nat.one_dvd _) h0 ?_ j
  intro i s _ hi hs
  obtain ⟨k, rfl⟩ := hi
  have := hs.update
  rwa [if_neg (by omega)] at this

end Gather

/-- **What `gather_field` leaves in the buffer.** -/
theorem gatherField_apply (data : Data) (ptr : ℕ) (field : FieldDescriptor) (rowStride rowCount : ℕ)
    (out : ColumnBuffer) {j : ℕ} (hj : j < 64) :
    gatherField data ptr field rowStride rowCount out j =
      if j < rowCount then memcpy8 data (ptr + j * rowStride + field.offset.toNat) else 0 := by
  rw [gatherField, gather_apply (Nat.min_le_right _ _), if_pos hj]
  exact if_congr (by omega) rfl rfl

/-! ## What is read -/

/-- The bytes of `memcpy(&v, data + a, 8)`. -/
def wordBytes (a : ℕ) : List ℕ := (List.range 8).map fun k => a + k

theorem mem_wordBytes {a b : ℕ} : b ∈ wordBytes a ↔ ∃ k < 8, b = a + k := by
  simp only [wordBytes, List.mem_map, List.mem_range, eq_comm]

/-- The bytes a gather reads, in order, when row `i` is read at `address i`: those of the
unrolled loop, and those of the rows that are left. -/
def gatherReads (address : ℕ → ℕ) (rows : ℕ) : List ℕ :=
  Loop.collect 0 (rows - 3) 4 (fun i =>
      wordBytes (address (i + 0)) ++ wordBytes (address (i + 1)) ++ wordBytes (address (i + 2)) ++
        wordBytes (address (i + 3))) ++
    Loop.collect (Loop.last 0 (rows - 3) 4) rows 1 fun i => wordBytes (address i)

/-- The bytes `gather_field` reads. -/
def gatherFieldReads (ptr : ℕ) (field : FieldDescriptor) (rowStride rowCount : ℕ) : List ℕ :=
  gatherReads (fun i => ptr + i * rowStride + field.offset.toNat) (min rowCount 64)

/-- **A gather reads the words of its rows.** -/
theorem mem_gatherReads {address : ℕ → ℕ} {rows a : ℕ} :
    a ∈ gatherReads address rows ↔ ∃ r < rows, a ∈ wordBytes (address r) := by
  rw [gatherReads, List.mem_append, Loop.mem_collect (by omega), Loop.mem_collect Nat.one_pos,
    last_four]
  simp only [List.mem_append, Nat.zero_add, Nat.mul_one]
  constructor
  · rintro (⟨j, hj, ((h | h) | h) | h⟩ | ⟨j, hj, h⟩)
    · exact ⟨j * 4 + 0, by omega, h⟩
    · exact ⟨j * 4 + 1, by omega, h⟩
    · exact ⟨j * 4 + 2, by omega, h⟩
    · exact ⟨j * 4 + 3, by omega, h⟩
    · exact ⟨rows / 4 * 4 + j, hj, h⟩
  · rintro ⟨r, hr, h⟩
    by_cases hlast : r < rows / 4 * 4
    · refine Or.inl ⟨r / 4, by omega, ?_⟩
      have hsplit : r = r / 4 * 4 + r % 4 := by omega
      rw [hsplit] at h
      have hlt : r % 4 < 4 := Nat.mod_lt _ (by omega)
      generalize r % 4 = k at h hlt
      obtain rfl | rfl | rfl | rfl : k = 0 ∨ k = 1 ∨ k = 2 ∨ k = 3 := by omega
      · exact Or.inl (Or.inl (Or.inl h))
      · exact Or.inl (Or.inl (Or.inr h))
      · exact Or.inl (Or.inr h)
      · exact Or.inr h
    · refine Or.inr ⟨r - rows / 4 * 4, by omega, ?_⟩
      rwa [Nat.add_sub_cancel' (Nat.not_lt.mp hlast)]

/-- **`gather_field` reads** the eight bytes of the field in every row of the block. -/
theorem mem_gatherFieldReads {ptr rowStride rowCount a : ℕ} {field : FieldDescriptor}
    (hrows : rowCount ≤ 64) :
    a ∈ gatherFieldReads ptr field rowStride rowCount ↔
      ∃ r < rowCount, ∃ k < 8, a = ptr + r * rowStride + field.offset.toNat + k := by
  simp only [gatherFieldReads, mem_gatherReads, mem_wordBytes, Nat.min_eq_left hrows]

/-! ## Words -/

/-- Words depend on their eight bytes. -/
theorem memcpy8_congr {data data' : Data} {a a' : ℕ}
    (h : ∀ k < 8, data (a + k) = data' (a' + k)) : memcpy8 data a = memcpy8 data' a' := by
  have hbytes : ((List.range 8).map fun k => (data (a + k)).toNat) =
      (List.range 8).map fun k => (data' (a' + k)).toNat :=
    List.map_congr_left fun k hk => by rw [h k (List.mem_range.mp hk)]
  rw [memcpy8, memcpy8, hbytes]

/-- **A gather depends on what it reads.** -/
theorem gatherField_congr {data data' : Data} {ptr : ℕ} {field : FieldDescriptor}
    {rowStride rowCount : ℕ}
    (h : ∀ a ∈ gatherFieldReads ptr field rowStride rowCount, data a = data' a) (out : ColumnBuffer) :
    gatherField data ptr field rowStride rowCount out =
      gatherField data' ptr field rowStride rowCount out := by
  funext j
  rw [gatherField, gatherField, gather_apply (Nat.min_le_right _ _),
    gather_apply (Nat.min_le_right _ _)]
  refine if_congr Iff.rfl ?_ rfl
  by_cases hj : j < min rowCount 64
  · rw [if_pos hj, if_pos hj]
    exact memcpy8_congr fun k hk => h _ (mem_gatherReads.mpr ⟨j, hj, mem_wordBytes.mpr ⟨k, hk, rfl⟩⟩)
  · rw [if_neg hj, if_neg hj]

/-- A word of zero bytes is zero. -/
theorem memcpy8_zero {data : Data} {a : ℕ} (h : ∀ k < 8, data (a + k) = 0) : memcpy8 data a = 0 := by
  have hbytes : ((List.range 8).map fun k => (data (a + k)).toNat) = List.replicate 8 0 := by
    refine List.eq_replicate_iff.mpr ⟨by simp, fun b hb => ?_⟩
    obtain ⟨k, hk, rfl⟩ := List.mem_map.mp hb
    rw [h k (List.mem_range.mp hk)]
    rfl
  rw [memcpy8, hbytes]
  rfl

/-- The bytes of a number, from an address on. -/
def bytesAt (a x : ℕ) : Data := fun b =>
  if b < a then 0 else UInt8.ofNat (x / 256 ^ (b - a) % 256)

/-- Reading them with an offset reads the number without its low bytes. -/
theorem memcpy8_bytesAt {a x : ℕ} (hx : x < 2 ^ 64) (k : ℕ) :
    memcpy8 (bytesAt a x) (a + k) = BitVec.ofNat 64 (x / 256 ^ k) := by
  have hbyte : ∀ j, (bytesAt a x (a + k + j)).toNat = x / 256 ^ k / 256 ^ j % 256 := by
    intro j
    rw [bytesAt, if_neg (by omega), show a + k + j - a = k + j by omega, UInt8.toNat_ofNat',
      Nat.div_div_eq_div_mul, ← pow_add]
    omega
  have hlt : x / 256 ^ k < 2 ^ 64 := (Nat.div_le_self _ _).trans_lt hx
  unfold memcpy8
  simp only [hbyte]
  generalize x / 256 ^ k = y at hlt
  refine congrArg (BitVec.ofNat 64) ?_
  simp [List.range_succ_eq_map, Nat.ofDigits]
  omega

/-- `__builtin_popcountll`. -/
def popcount (mask : Word) : ℕ := (List.range 64).countP fun r => mask.getLsbD r

end Compute
end ApexEngine
