import ApexEngine.Machine.A64
import Mathlib.Tactic.Linarith

/-!
# Memory laid out in regions

Compiled code reaches memory through a few arrays: its arguments, its scratch
space, its frame, its tables.  A `Layout` gives each of them a region of the
address space, and carries the proofs that make them behave as separate arrays:
every region is aligned, none wraps onto itself, and no two share a cell.

`Holds L m f` says that memory `m` shows the contents `f`.  Under it a load from a
cell is a read of `f` and a store to a cell is an update of `f` at that cell
alone (`Holds.load`, `Holds.store`), so a proof about code never compares
addresses.  `Layout.memory` goes the other way and builds a memory showing given
contents.
-/

namespace A64

/-- An array of doublewords in memory. -/
structure Region where
  base : Word
  len : ℕ
  deriving DecidableEq, Repr

namespace Region

/-- The address of a cell. -/
def addr (R : Region) (i : ℕ) : Word := R.base + BitVec.ofNat 64 (8 * i)

/-- The cell an address is, if it is one. -/
def index? (R : Region) (a : Word) : Option ℕ :=
  if (a - R.base).toNat % 8 = 0 ∧ (a - R.base).toNat / 8 < R.len then
    some ((a - R.base).toNat / 8)
  else none

theorem toNat_addr_sub_base {R : Region} {i : ℕ} (hlen : R.len ≤ 2 ^ 61) (hi : i < R.len) :
    (R.addr i - R.base).toNat = 8 * i := by
  have hsub : R.addr i - R.base = BitVec.ofNat 64 (8 * i) := by
    rw [addr, BitVec.add_comm, BitVec.add_sub_cancel]
  rw [hsub, BitVec.toNat_ofNat, Nat.mod_eq_of_lt]
  omega

theorem index?_addr {R : Region} {i : ℕ} (hlen : R.len ≤ 2 ^ 61) (hi : i < R.len) :
    R.index? (R.addr i) = some i := by
  rw [index?, toNat_addr_sub_base hlen hi, if_pos (by omega), Nat.mul_div_cancel_left i (by omega)]

theorem eq_addr_of_index? {R : Region} {a : Word} {i : ℕ} (h : R.index? a = some i) :
    i < R.len ∧ a = R.addr i := by
  unfold index? at h
  split at h
  · rename_i hc
    obtain ⟨hmod, hlt⟩ := hc
    have hi : (a - R.base).toNat / 8 = i := Option.some.inj h
    refine ⟨hi ▸ hlt, ?_⟩
    have hnat : 8 * i = (a - R.base).toNat := by omega
    rw [addr, hnat, BitVec.ofNat_toNat, BitVec.setWidth_eq, BitVec.add_comm, BitVec.sub_add_cancel]
  · exact absurd h (by simp)

/-- Cells of intervals that follow one another are different. -/
theorem addr_ne_addr_of_lt {R S : Region} {i j : ℕ} (hi : i < R.len) (hj : j < S.len)
    (hRS : R.base.toNat + 8 * R.len ≤ S.base.toNat) (hS : S.base.toNat + 8 * S.len ≤ 2 ^ 64) :
    R.addr i ≠ S.addr j := by
  intro h
  have := congrArg BitVec.toNat h
  simp only [addr, BitVec.toNat_add, BitVec.toNat_ofNat] at this
  omega

end Region

/-- Regions for the arrays named by `ι`, with what keeps them separate. -/
structure Layout (ι : Type*) where
  region : ι → Region
  /-- Every base is the address of a doubleword. -/
  aligned : ∀ s, (region s).base.toNat % 8 = 0
  /-- No region wraps around the address space onto itself. -/
  small : ∀ s, (region s).len ≤ 2 ^ 61
  /-- Different arrays share no cell. -/
  apart : ∀ s t, s ≠ t → ∀ i < (region s).len, ∀ j < (region t).len,
    (region s).addr i ≠ (region t).addr j

namespace Layout

variable {ι : Type*} (L : Layout ι)

/-- The address of a cell of an array. -/
def cell (s : ι) (i : ℕ) : Word := (L.region s).addr i

/-- The number of cells of an array. -/
def len (s : ι) : ℕ := (L.region s).len

theorem aligned_cell (s : ι) (i : ℕ) : (L.cell s i).toNat % 8 = 0 := by
  have := L.aligned s
  simp only [cell, Region.addr, BitVec.toNat_add, BitVec.toNat_ofNat]
  omega

/-- Moving along an array: the offset of a cell from another one. -/
theorem cell_add (s : ι) (i j : ℕ) :
    L.cell s i + BitVec.ofNat 64 (8 * j) = L.cell s (i + j) := by
  simp only [cell, Region.addr, Nat.mul_add, BitVec.ofNat_add, BitVec.add_assoc]

/-- A pointer past a cell, decremented, points to it. -/
theorem cell_succ_sub (s : ι) (i : ℕ) : L.cell s (i + 1) - 8 = L.cell s i := by
  rw [← L.cell_add s i 1]
  exact BitVec.add_sub_cancel _ _

variable {L}

theorem cell_inj {s t : ι} {i j : ℕ} (hi : i < L.len s) (hj : j < L.len t)
    (h : L.cell s i = L.cell t j) : s = t ∧ i = j := by
  by_cases hst : s = t
  · subst hst
    refine ⟨rfl, ?_⟩
    have h1 := Region.index?_addr (L.small s) hi
    have h2 := Region.index?_addr (L.small s) hj
    rw [show (L.region s).addr i = (L.region s).addr j from h, h2] at h1
    exact (Option.some.inj h1).symm
  · exact absurd h (L.apart s t hst i hi j hj)

end Layout

/-! ## Contents -/

/-- What each cell of each array contains. -/
abbrev Contents (ι : Type*) := ι → ℕ → Word

namespace Contents

variable {ι : Type*} [DecidableEq ι]

/-- Replace one cell. -/
def set (f : Contents ι) (s : ι) (i : ℕ) (v : Word) : Contents ι :=
  Function.update f s (Function.update (f s) i v)

@[simp] theorem set_same (f : Contents ι) (s : ι) (i : ℕ) (v : Word) :
    f.set s i v s = Function.update (f s) i v := by simp [set]

theorem set_of_ne (f : Contents ι) {s t : ι} (i : ℕ) (v : Word) (h : t ≠ s) :
    f.set s i v t = f t := by simp [set, h]

end Contents

/-- The memory shows the contents. -/
def Holds {ι : Type*} (L : Layout ι) (m : Memory) (f : Contents ι) : Prop :=
  ∀ s i, i < L.len s → m (L.cell s i) = some (f s i)

section Holds

variable {ι : Type*} {L : Layout ι} {m : Memory} {f : Contents ι}

theorem Holds.load (h : Holds L m f) {s : ι} {i : ℕ} (hi : i < L.len s) :
    m.load (L.cell s i) = some (f s i) := by
  rw [Memory.load, if_pos (L.aligned_cell s i), h s i hi]

theorem Holds.store (h : Holds L m f) {s : ι} {i : ℕ} (hi : i < L.len s) (v : Word) :
    m.store (L.cell s i) v = some (Function.update m (L.cell s i) (some v)) := by
  rw [Memory.store, if_pos ⟨L.aligned_cell s i, by rw [h s i hi]; rfl⟩]

theorem Holds.update [DecidableEq ι] (h : Holds L m f) {s : ι} {i : ℕ} (hi : i < L.len s)
    (v : Word) : Holds L (Function.update m (L.cell s i) (some v)) (f.set s i v) := by
  intro t j hj
  by_cases hc : L.cell t j = L.cell s i
  · obtain ⟨rfl, rfl⟩ := Layout.cell_inj hj hi hc
    simp
  · rw [Function.update_of_ne hc, h t j hj]
    by_cases hts : t = s
    · subst hts
      have hji : j ≠ i := fun hji => hc (by rw [hji])
      simp [hji]
    · rw [Contents.set_of_ne _ _ _ hts]

/-- Contents that agree on the cells are interchangeable. -/
theorem Holds.congr {g : Contents ι} (h : Holds L m f)
    (hfg : ∀ s i, i < L.len s → f s i = g s i) : Holds L m g := by
  intro s i hi
  rw [h s i hi, hfg s i hi]

end Holds

/-! ## Building a memory -/

/-- Put an array over a memory. -/
def Memory.overlay (m : Memory) (R : Region) (f : ℕ → Word) : Memory := fun a =>
  match R.index? a with
  | some i => some (f i)
  | none => m a

/-- Lay the listed arrays over a background. -/
def Layout.memory {ι : Type*} (L : Layout ι) (segs : List ι) (f : Contents ι)
    (background : Memory) : Memory :=
  segs.foldr (fun s m => m.overlay (L.region s) (f s)) background

section Build

variable {ι : Type*} {L : Layout ι} {f : Contents ι} {background : Memory}

theorem Layout.memory_cell {segs : List ι} {s : ι} (hs : s ∈ segs) {i : ℕ} (hi : i < L.len s) :
    L.memory segs f background (L.cell s i) = some (f s i) := by
  induction segs with
  | nil => exact absurd hs (by simp)
  | cons t ts ih =>
    rw [Layout.memory, List.foldr_cons, Memory.overlay]
    by_cases hts : t = s
    · subst hts
      rw [show L.cell t i = (L.region t).addr i from rfl, Region.index?_addr (L.small t) hi]
    · have hnone : (L.region t).index? (L.cell s i) = none := by
        cases hidx : (L.region t).index? (L.cell s i) with
        | none => rfl
        | some j =>
          obtain ⟨hj, hcell⟩ := Region.eq_addr_of_index? hidx
          exact absurd hcell.symm (L.apart t s hts j hj i hi)
      rw [hnone]
      exact ih ((List.mem_cons.mp hs).resolve_left fun h => hts h.symm)

/-- When every array is listed, the memory shows the contents. -/
theorem Layout.holds_memory {segs : List ι} (hall : ∀ s, s ∈ segs) :
    Holds L (L.memory segs f background) f :=
  fun s _ hi => Layout.memory_cell (hall s) hi

/-- Away from the arrays the background shows through. -/
theorem Layout.memory_of_forall_ne {segs : List ι} {a : Word}
    (h : ∀ s ∈ segs, ∀ i < L.len s, a ≠ L.cell s i) :
    L.memory segs f background a = background a := by
  induction segs with
  | nil => rfl
  | cons t ts ih =>
    rw [Layout.memory, List.foldr_cons, Memory.overlay]
    have hnone : (L.region t).index? a = none := by
      cases hidx : (L.region t).index? a with
      | none => rfl
      | some j =>
        obtain ⟨hj, hcell⟩ := Region.eq_addr_of_index? hidx
        exact absurd hcell (h t List.mem_cons_self j hj)
    rw [hnone]
    exact ih fun s hs => h s (List.mem_cons_of_mem t hs)

/-- A store to a cell is an update of the contents it was built from. -/
theorem Layout.update_memory [DecidableEq ι] {segs : List ι} (hall : ∀ s, s ∈ segs) {s : ι}
    {i : ℕ} (hi : i < L.len s) (v : Word) :
    Function.update (L.memory segs f background) (L.cell s i) (some v) =
      L.memory segs (f.set s i v) background := by
  funext a
  by_cases hcell : ∃ t j, j < L.len t ∧ a = L.cell t j
  · obtain ⟨t, j, hj, rfl⟩ := hcell
    have hold : Holds L (L.memory segs f background) f := holds_memory hall
    rw [hold.update hi v t j hj, memory_cell (hall t) hj]
  · have hout : ∀ t ∈ segs, ∀ j < L.len t, a ≠ L.cell t j :=
      fun t _ j hj h => hcell ⟨t, j, hj, h⟩
    rw [Function.update_of_ne (hout s (hall s) i hi), memory_of_forall_ne hout,
      memory_of_forall_ne hout]

end Build

end A64
