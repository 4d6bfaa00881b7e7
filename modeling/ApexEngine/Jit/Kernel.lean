import ApexEngine.BitPlane.Arith
import ApexEngine.Jit.IR
import ApexEngine.Machine.Layout
import ApexEngine.Machine.Run

/-!
# Calling a compiled kernel

A kernel is a pointer to code.  Calling it means putting its arguments where its
code expects them and running the machine, so a call needs the addresses of the
caller's arrays, and they are the caller's to choose.  `Caller` is such a choice:
where the plane buffers, the array of plane pointers, the scratchpad, the stack and
the constant planes of the thread lie, and what every other register and address
contains.  Its fields say that these are different objects, that the code's own
frame of twelve words is free below the stack pointer, and that address zero is not
mapped.  Nothing is assumed about the remaining registers and memory.

The planes are given as the engine has them: a slot is bound to a buffer of 64
words or it is null.
-/

namespace ApexEngine
namespace Jit

open A64 (Word Reg Cpu Item)

/-- The arrays a kernel can reach.  `konst k` is the `k`-th array of the constant
pool. -/
inductive Seg (n : ℕ) where
  | planesArray
  | plane (i : Fin 8)
  | scratch
  | stack
  | konst (k : Fin n)
  deriving DecidableEq

/-- The number of words of each array.  The scratchpad has `8 * 64` words. -/
def Seg.size {n : ℕ} : Seg n → ℕ
  | .planesArray => 8
  | .plane _ => 64
  | .scratch => 512
  | .stack => 12
  | .konst _ => 64

/-- All arrays that a kernel is called with. -/
def Seg.all (n : ℕ) : List (Seg n) :=
  .planesArray :: .scratch :: .stack ::
    ((List.finRange 8).map .plane ++ (List.finRange n).map .konst)

theorem Seg.mem_all {n : ℕ} (s : Seg n) : s ∈ Seg.all n := by
  cases s <;> simp [Seg.all]

/-- The planes handed to a kernel: what each slot of the plane array points to. -/
abbrev Planes := ℕ → Option (ℕ → Word)

/-- The content of a scratchpad. -/
abbrev Scratch := ℕ → Word

/-- The planes `ConstPool::get_or_create` fills: all ones where the `int64_t`
shifted right has its last bit set. -/
def constPlanes (constValue : Word) (bit : ℕ) : Word :=
  if constValue.sshiftRight bit &&& 1 ≠ 0 then BitVec.allOnes 64 else 0

theorem and_one_eq_zero_iff {x : Word} : x &&& 1 = 0 ↔ x.getLsbD 0 = false := by
  constructor
  · intro h
    have := congrArg (fun y : Word => y.getLsbD 0) h
    simpa using this
  · intro h
    apply BitVec.eq_of_getLsbD_eq
    intro i hi
    cases i with
    | zero => simpa using h
    | succ i => simp

/-- The sign that an arithmetic shift brings in is never the last bit. -/
theorem constPlanes_eq (v : Word) {b : ℕ} (hb : b < 64) :
    constPlanes v b = BitPlane.broadcast v b := by
  have hbit : (v.sshiftRight b).getLsbD 0 = v.getLsbD b := by
    rw [BitVec.getLsbD_sshiftRight]
    simp [hb]
  unfold constPlanes BitPlane.broadcast
  simp only [ne_eq, and_one_eq_zero_iff, hbit, Bool.not_eq_false]

/-- The circumstances of a call. -/
structure Caller where
  /-- The constant pool of the thread: each constant and the address of its planes. -/
  pool : List (Word × Word)
  layout : A64.Layout (Seg pool.length)
  regs : Reg → Word
  flags : A64.Flags
  stackWords : ℕ → Word
  background : A64.Memory
  len_eq : ∀ s, layout.len s = s.size
  konst_addr : ∀ k : Fin pool.length, layout.cell (.konst k) 0 = (pool.get k).2
  /-- No object lies in the first page. -/
  page_le : ∀ s, ∀ i < s.size, 4096 ≤ (layout.cell s i).toNat
  /-- The first page is not mapped. -/
  background_page : ∀ a : Word, a.toNat < 4096 → background a = none

namespace Caller

variable (c : Caller)

/-- What the arrays contain: the planes and the constants stay as they are, the
scratchpad and the stack are written. -/
def contents (planes : Planes) (scratch stack : ℕ → Word) : A64.Contents (Seg c.pool.length)
  | .planesArray, j =>
      if h : j < 8 then
        match planes j with
        | some _ => c.layout.cell (.plane ⟨j, h⟩) 0
        | none => 0
      else 0
  | .plane i, b => ((planes i).map fun p => p b).getD 0
  | .scratch, j => scratch j
  | .stack, j => stack j
  | .konst k, b => constPlanes (c.pool.get k).1 b

/-- The memory with given contents. -/
def memory (planes : Planes) (scratch stack : ℕ → Word) : A64.Memory :=
  c.layout.memory (Seg.all _) (c.contents planes scratch stack) c.background

/-- The machine when a kernel is entered with a first argument. -/
def enter (arg : Word) (planes : Planes) (scratch : Scratch) : Cpu :=
  ((Cpu.mk c.regs c.flags (c.memory planes scratch c.stackWords)).set .x0 arg
    |>.set .x1 (c.layout.cell .scratch 0)).set .sp (c.layout.cell .stack 12)

/-- Fuel for code whose loops run at most 64 times. -/
def fuel (code : List Item) : ℕ := 65 * code.length + 1

/-- Call an expression kernel: the mask it returns, and the scratchpad it leaves. -/
def callExpr (code : List Item) (planes : Planes) (scratch : Scratch) :
    Option (Word × Scratch) :=
  (A64.run code (fuel code) ⟨0, c.enter (c.layout.cell .planesArray 0) planes scratch⟩).map
    fun r => (r.2.get .x0, fun j => (r.2.mem (c.layout.cell .scratch j)).getD 0)

/-- Call a threshold kernel on the planes in the first buffer. -/
def callThreshold (code : List Item) (planes : ℕ → Word) : Option Word :=
  (A64.run code (fuel code)
    ⟨0, c.enter (c.layout.cell (.plane 0) 0) (fun _ => some planes) fun _ => 0⟩).map
    fun r => r.2.get .x0

/-- The machine when a threshold kernel is entered. -/
def enterThreshold (planes : ℕ → Word) : Cpu :=
  c.enter (c.layout.cell (.plane 0) 0) (fun _ => some planes) fun _ => 0

/-! ## Memory as the arrays -/

section Memory

variable (planes : Planes) (scratch stack : ℕ → Word)

theorem holds_memory :
    A64.Holds c.layout (c.memory planes scratch stack) (c.contents planes scratch stack) :=
  A64.Layout.holds_memory Seg.mem_all

theorem memory_page {a : Word} (ha : a.toNat < 4096) : c.memory planes scratch stack a = none := by
  rw [memory, A64.Layout.memory_of_forall_ne, c.background_page a ha]
  intro s _ i hi heq
  have := c.page_le s i (by rw [← c.len_eq s]; exact hi)
  rw [← heq] at this
  omega

theorem load_cell {s : Seg c.pool.length} {i : ℕ} (hi : i < s.size) :
    (c.memory planes scratch stack).load (c.layout.cell s i) =
      some (c.contents planes scratch stack s i) :=
  (c.holds_memory planes scratch stack).load (by rw [c.len_eq]; exact hi)

/-- A bound slot of the plane array points to its buffer. -/
theorem load_planesArray {i : ℕ} (hi : i < 8) {p : ℕ → Word} (hp : planes i = some p) :
    (c.memory planes scratch stack).load (c.layout.cell .planesArray i) =
      some (c.layout.cell (.plane ⟨i, hi⟩) 0) := by
  rw [c.load_cell planes scratch stack (s := .planesArray) hi]
  simp [contents, hi, hp]

/-- An unbound slot holds the null pointer. -/
theorem load_planesArray_none {i : ℕ} (hi : i < 8) (hp : planes i = none) :
    (c.memory planes scratch stack).load (c.layout.cell .planesArray i) = some 0 := by
  rw [c.load_cell planes scratch stack (s := .planesArray) hi]
  simp [contents, hi, hp]

theorem load_plane {i : ℕ} (hi : i < 8) {p : ℕ → Word} (hp : planes i = some p) {b : ℕ}
    (hb : b < 64) :
    (c.memory planes scratch stack).load (c.layout.cell (.plane ⟨i, hi⟩) b) = some (p b) := by
  rw [c.load_cell planes scratch stack (s := .plane ⟨i, hi⟩) hb]
  simp [contents, hp]

theorem load_konst {k : Fin c.pool.length} {b : ℕ} (hb : b < 64) :
    (c.memory planes scratch stack).load (c.layout.cell (.konst k) b) =
      some (BitPlane.broadcast (c.pool.get k).1 b) := by
  rw [← constPlanes_eq _ hb]
  exact c.load_cell planes scratch stack (s := .konst k) hb

theorem load_scratch {j : ℕ} (hj : j < 512) :
    (c.memory planes scratch stack).load (c.layout.cell .scratch j) = some (scratch j) :=
  c.load_cell planes scratch stack (s := .scratch) hj

theorem load_stack {j : ℕ} (hj : j < 12) :
    (c.memory planes scratch stack).load (c.layout.cell .stack j) = some (stack j) :=
  c.load_cell planes scratch stack (s := .stack) hj

theorem store_scratch {j : ℕ} (hj : j < 512) (v : Word) :
    (c.memory planes scratch stack).store (c.layout.cell .scratch j) v =
      some (c.memory planes (Function.update scratch j v) stack) := by
  rw [(c.holds_memory planes scratch stack).store (by rw [c.len_eq]; exact hj), memory,
    A64.Layout.update_memory Seg.mem_all (by rw [c.len_eq]; exact hj), memory]
  congr 2
  funext s
  cases s with
  | scratch => simp; rfl
  | _ => exact A64.Contents.set_of_ne _ _ _ (by simp)

theorem store_stack {j : ℕ} (hj : j < 12) (v : Word) :
    (c.memory planes scratch stack).store (c.layout.cell .stack j) v =
      some (c.memory planes scratch (Function.update stack j v)) := by
  rw [(c.holds_memory planes scratch stack).store (by rw [c.len_eq]; exact hj), memory,
    A64.Layout.update_memory Seg.mem_all (by rw [c.len_eq]; exact hj), memory]
  congr 2
  funext s
  cases s with
  | stack => simp; rfl
  | _ => exact A64.Contents.set_of_ne _ _ _ (by simp)

end Memory

/-! ## The state at entry -/

section Enter

variable (arg : Word) (planes : Planes) (scratch : Scratch)

@[simp] theorem enter_mem : (c.enter arg planes scratch).mem = c.memory planes scratch c.stackWords := rfl

@[simp] theorem enter_x0 : (c.enter arg planes scratch).get .x0 = arg := by simp [enter]

@[simp] theorem enter_x1 : (c.enter arg planes scratch).get .x1 = c.layout.cell .scratch 0 := by
  simp [enter]

@[simp] theorem enter_sp : (c.enter arg planes scratch).get .sp = c.layout.cell .stack 12 := by
  simp [enter]

/-- The other registers are the caller's. -/
theorem enter_get {r : Reg} (h0 : r ≠ .x0) (h1 : r ≠ .x1) (hsp : r ≠ .sp) (hz : r ≠ .xzr) :
    (c.enter arg planes scratch).get r = c.regs r := by
  simp [enter, Cpu.get, Cpu.set, Function.update_of_ne, h0, h1, hsp, hz]

end Enter

/-! ## A caller for given constants -/

end Caller

/-- The address of the `k`-th constant's planes in a standard layout. -/
def konstAddr (k : ℕ) : ℕ := 65536 + 512 * k

/-- Where an array lies in a standard layout. -/
def Seg.base {n : ℕ} : Seg n → ℕ
  | .planesArray => 4096
  | .scratch => 8192
  | .stack => 16384
  | .plane i => 32768 + 512 * i
  | .konst k => konstAddr k

/-- The arrays follow one another. -/
theorem Seg.base_apart {n : ℕ} {s t : Seg n} (h : s ≠ t) :
    s.base + 8 * s.size ≤ t.base ∨ t.base + 8 * t.size ≤ s.base := by
  cases s <;> cases t <;> simp only [Seg.base, Seg.size, konstAddr] <;>
    first
    | omega
    | exact absurd rfl h
    | (rename_i i j
       have hij : i.val ≠ j.val := fun heq => h (by rw [Fin.ext heq])
       omega)

theorem Seg.base_le {n : ℕ} (hn : n ≤ 2 ^ 32) (s : Seg n) :
    4096 ≤ s.base ∧ s.base % 8 = 0 ∧ s.base + 8 * s.size ≤ 2 ^ 64 := by
  cases s with
  | plane i =>
    have := i.isLt
    simp only [Seg.base, Seg.size]
    omega
  | konst k =>
    have := k.isLt
    simp only [Seg.base, Seg.size, konstAddr]
    omega
  | _ => simp [Seg.base, Seg.size]

theorem Seg.size_pos {n : ℕ} (s : Seg n) : 0 < s.size := by
  cases s <;> simp only [Seg.size] <;> omega

/-- The standard layout. -/
def Seg.layout {n : ℕ} (hn : n ≤ 2 ^ 32) : A64.Layout (Seg n) where
  region s := ⟨BitVec.ofNat 64 s.base, s.size⟩
  aligned s := by
    have := Seg.base_le hn s
    simp only [BitVec.toNat_ofNat]
    omega
  small s := by cases s <;> simp only [Seg.size] <;> omega
  apart s t hst i hi j hj := by
    have hs := Seg.base_le hn s
    have ht := Seg.base_le hn t
    have hpos : 0 < s.size ∧ 0 < t.size := ⟨s.size_pos, t.size_pos⟩
    have hbase : ∀ u : Seg n, u.base + 8 * u.size ≤ 2 ^ 64 → 0 < u.size →
        (BitVec.ofNat 64 u.base).toNat = u.base := fun u hu hp => by
      rw [BitVec.toNat_ofNat, Nat.mod_eq_of_lt (by omega)]
    rcases Seg.base_apart hst with h | h
    · refine A64.Region.addr_ne_addr_of_lt hi hj ?_ ?_
      · simp only [hbase s hs.2.2 hpos.1, hbase t ht.2.2 hpos.2]
        exact h
      · simp only [hbase t ht.2.2 hpos.2]
        exact ht.2.2
    · refine (A64.Region.addr_ne_addr_of_lt hj hi ?_ ?_).symm
      · simp only [hbase s hs.2.2 hpos.1, hbase t ht.2.2 hpos.2]
        exact h
      · simp only [hbase s hs.2.2 hpos.1]
        exact hs.2.2

/-- A heap that allocates the planes of constants in the standard layout. -/
def standardHeap (k : ℕ) : Word := BitVec.ofNat 64 (konstAddr k)

/-- A pool of constants in the standard layout. -/
def standardPool (vs : List Word) : List (Word × Word) :=
  vs.zipIdx.map fun p => (p.1, standardHeap p.2)

theorem length_standardPool (vs : List Word) : (standardPool vs).length = vs.length := by
  simp [standardPool]

theorem snd_standardPool (vs : List Word) {k : ℕ} (hk : k < (standardPool vs).length) :
    (standardPool vs)[k].2 = BitVec.ofNat 64 (konstAddr k) := by
  simp [standardPool, standardHeap]

/-- **There is a caller for every pool of constants**, with nothing else in memory. -/
def Caller.standard (vs : List Word) (hvs : vs.length ≤ 2 ^ 32) : Caller where
  pool := standardPool vs
  layout := Seg.layout (by rw [length_standardPool]; exact hvs)
  regs _ := 0
  flags := ⟨false, false, false, false⟩
  stackWords _ := 0
  background _ := none
  len_eq _ := rfl
  konst_addr k := by
    rw [List.get_eq_getElem, snd_standardPool]
    simp [A64.Layout.cell, A64.Region.addr, Seg.layout, Seg.base]
  page_le s i hi := by
    have hs := Seg.base_le (by rw [length_standardPool]; exact hvs) s
    simp only [A64.Layout.cell, A64.Region.addr, Seg.layout, BitVec.toNat_add, BitVec.toNat_ofNat]
    omega
  background_page _ _ := rfl

end Jit
end ApexEngine
