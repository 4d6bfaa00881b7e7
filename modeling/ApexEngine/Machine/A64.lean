import Mathlib.Data.Nat.Notation
import Mathlib.Logic.Function.Basic

/-!
# A reference semantics for a fragment of A64

The fragment is straight-line 64-bit integer code with loads and stores of whole
words, the pair loads and stores of a stack frame, flag-setting compares, and
branches to labels.  A program is the list of items handed to an assembler: an
instruction, the binding of a label, or a branch.  Nothing is resolved to an
address, so a position in the program is an index into the list.

## What is observable

A `Cpu` is the register file, the four flags and the memory.  Memory is a partial
map from addresses to words: an address that is not mapped has no word, and
touching it is a fault.  Only aligned doublewords are accessed, so a word is
stored under the address of its first byte and two distinct aligned addresses
never overlap; an access that is not aligned is a fault as well.

`run` gives the state at the first `ret` together with the address returned to,
and nothing at all when an access faults, when control leaves the program, or
when the fuel is too small.  Every positive statement about `run` therefore says
that the program terminates without a fault.
-/

namespace A64

/-- A register's worth of bits. -/
abbrev Word := BitVec 64

/-- The general-purpose registers.  `xzr` reads as zero and ignores writes. -/
inductive Reg where
  | x0 | x1 | x2 | x3 | x4 | x5 | x6 | x7 | x8 | x9 | x10 | x11 | x12 | x13 | x14 | x15
  | x16 | x17 | x18 | x19 | x20 | x21 | x22 | x23 | x24 | x25 | x26 | x27 | x28 | x29 | x30
  | sp | xzr
  deriving DecidableEq, Repr

/-- The condition codes of the fragment. -/
inductive Cond where
  /-- Unsigned higher or same. -/
  | hs
  /-- Unsigned lower. -/
  | lo
  /-- Unsigned higher. -/
  | hi
  /-- Equal. -/
  | eq
  /-- Signed less than. -/
  | lt
  deriving DecidableEq, Repr

/-- The flexible second operand of a data-processing instruction. -/
inductive Operand where
  | reg (r : Reg)
  | imm (v : Word)
  deriving DecidableEq, Repr

/-- The two-operand data-processing operations. -/
inductive BinOp where
  | add | sub | and | orr | eor
  /-- Bit clear: the first operand and the complement of the second. -/
  | bic
  | lsl
  deriving DecidableEq, Repr

/-- Addressing modes. -/
inductive Addr where
  /-- Base and immediate offset. -/
  | offset (base : Reg) (imm : Word)
  /-- Base and index register shifted left. -/
  | index (base idx : Reg) (shift : ℕ)
  /-- Pre-indexed: the base is updated, then used. -/
  | pre (base : Reg) (imm : Word)
  /-- Post-indexed: the base is used, then updated. -/
  | post (base : Reg) (imm : Word)
  deriving DecidableEq, Repr

/-- The instructions that fall through to the next item. -/
inductive Instr where
  | mov (d : Reg) (o : Operand)
  | mvn (d s : Reg)
  /-- Move a 16-bit immediate, zeroing the other bits. -/
  | movz (d : Reg) (imm : Word) (shift : ℕ)
  /-- Move a 16-bit immediate, keeping the other bits. -/
  | movk (d : Reg) (imm : Word) (shift : ℕ)
  | bin (op : BinOp) (d a : Reg) (b : Operand)
  | cmp (a : Reg) (b : Operand)
  | cset (d : Reg) (c : Cond)
  | ldr (d : Reg) (m : Addr)
  | str (s : Reg) (m : Addr)
  | stp (a b : Reg) (m : Addr)
  | ldp (a b : Reg) (m : Addr)
  deriving DecidableEq, Repr

/-- What an assembler is given, in order. -/
inductive Item where
  | instr (i : Instr)
  | label (l : ℕ)
  | b (l : ℕ)
  | bcond (c : Cond) (l : ℕ)
  | ret (r : Reg)
  deriving DecidableEq, Repr

/-- The condition flags. -/
structure Flags where
  n : Bool
  z : Bool
  c : Bool
  v : Bool
  deriving DecidableEq, Repr

/-- A partial map from addresses to words. -/
abbrev Memory := Word → Option Word

/-- The state of the machine apart from the program counter. -/
structure Cpu where
  reg : Reg → Word
  flags : Flags
  mem : Memory

/-! ## Registers -/

namespace Cpu

def get (c : Cpu) (r : Reg) : Word := if r = .xzr then 0 else c.reg r

def set (c : Cpu) (d : Reg) (v : Word) : Cpu := { c with reg := Function.update c.reg d v }

@[simp] theorem get_xzr (c : Cpu) : c.get .xzr = 0 := rfl

/-- Reading a register after a write: only the written register changes. -/
@[simp] theorem get_set (c : Cpu) (d r : Reg) (v : Word) :
    (c.set d v).get r = if r = .xzr then 0 else if r = d then v else c.get r := by
  by_cases hz : r = .xzr
  · simp [get, hz]
  · by_cases hd : r = d
    · subst hd; simp [get, set, hz]
    · simp [get, set, hz, hd]

theorem get_set_of_ne (c : Cpu) {d r : Reg} (v : Word) (h : r ≠ d) :
    (c.set d v).get r = c.get r := by
  by_cases hz : r = .xzr
  · simp [hz]
  · simp [hz, h]

/-- A register that was written has what was written. -/
theorem get_set_self (c : Cpu) {d : Reg} (v : Word) (hd : d ≠ .xzr) : (c.set d v).get d = v := by
  rw [get_set, if_neg hd, if_pos rfl]

@[simp] theorem mem_set (c : Cpu) (d : Reg) (v : Word) : (c.set d v).mem = c.mem := rfl

@[simp] theorem flags_set (c : Cpu) (d : Reg) (v : Word) : (c.set d v).flags = c.flags := rfl

/-- Replacing the memory leaves the registers alone. -/
@[simp] theorem get_with_mem (c : Cpu) (m : Memory) (r : Reg) :
    ({ c with mem := m } : Cpu).get r = c.get r := rfl

@[simp] theorem get_with_flags (c : Cpu) (f : Flags) (r : Reg) :
    ({ c with flags := f } : Cpu).get r = c.get r := rfl

/-- The value of a flexible operand. -/
def operand (c : Cpu) : Operand → Word
  | .reg r => c.get r
  | .imm v => v

@[simp] theorem operand_reg (c : Cpu) (r : Reg) : c.operand (.reg r) = c.get r := rfl

@[simp] theorem operand_imm (c : Cpu) (v : Word) : c.operand (.imm v) = v := rfl

end Cpu

/-! ## Memory -/

namespace Memory

/-- Load the aligned doubleword at an address. -/
def load (m : Memory) (a : Word) : Option Word := if a.toNat % 8 = 0 then m a else none

/-- Store an aligned doubleword at a mapped address. -/
def store (m : Memory) (a v : Word) : Option Memory :=
  if a.toNat % 8 = 0 ∧ (m a).isSome then some (Function.update m a (some v)) else none

end Memory

/-! ## Instructions -/

/-- The result of a two-operand operation. -/
def BinOp.eval : BinOp → Word → Word → Word
  | .add, a, b => a + b
  | .sub, a, b => a - b
  | .and, a, b => a &&& b
  | .orr, a, b => a ||| b
  | .eor, a, b => a ^^^ b
  | .bic, a, b => a &&& ~~~b
  | .lsl, a, b => a <<< (b.toNat % 64)

/-- The flags of the subtraction `a - b`. -/
def Flags.ofSub (a b : Word) : Flags where
  n := (a - b).msb
  z := a == b
  c := decide (b ≤ a)
  v := (a.msb != b.msb) && ((a - b).msb != a.msb)

/-- Whether a condition holds of the flags. -/
def Cond.holds : Cond → Flags → Bool
  | .hs, f => f.c
  | .lo, f => !f.c
  | .hi, f => f.c && !f.z
  | .eq, f => f.z
  | .lt, f => f.n != f.v

/-- The address an addressing mode denotes, and the state with the base register
written back. -/
def Addr.resolve (m : Addr) (c : Cpu) : Word × Cpu :=
  match m with
  | .offset base imm => (c.get base + imm, c)
  | .index base idx shift => (c.get base + c.get idx <<< shift, c)
  | .pre base imm => (c.get base + imm, c.set base (c.get base + imm))
  | .post base imm => (c.get base, c.set base (c.get base + imm))

/-- The effect of an instruction.  `none` is a fault. -/
def Instr.exec (i : Instr) (c : Cpu) : Option Cpu :=
  match i with
  | .mov d o => some (c.set d (c.operand o))
  | .mvn d s => some (c.set d (~~~c.get s))
  | .movz d imm shift => some (c.set d (imm <<< shift))
  | .movk d imm shift =>
      some (c.set d ((c.get d &&& ~~~((0xFFFF : Word) <<< shift)) ||| imm <<< shift))
  | .bin op d a b => some (c.set d (op.eval (c.get a) (c.operand b)))
  | .cmp a b => some { c with flags := Flags.ofSub (c.get a) (c.operand b) }
  | .cset d cond => some (c.set d (if cond.holds c.flags then 1 else 0))
  | .ldr d m =>
      let (a, c') := m.resolve c
      (c.mem.load a).map fun v => c'.set d v
  | .str s m =>
      let (a, c') := m.resolve c
      (c.mem.store a (c.get s)).map fun μ => { c' with mem := μ }
  | .stp r₁ r₂ m =>
      let (a, c') := m.resolve c
      (c.mem.store a (c.get r₁)).bind fun μ =>
        (μ.store (a + 8) (c.get r₂)).map fun μ' => { c' with mem := μ' }
  | .ldp r₁ r₂ m =>
      let (a, c') := m.resolve c
      (c.mem.load a).bind fun v₁ =>
        (c.mem.load (a + 8)).map fun v₂ => (c'.set r₁ v₁).set r₂ v₂

/-- A straight-line block. -/
def execs : List Instr → Cpu → Option Cpu
  | [], c => some c
  | i :: is, c => (i.exec c).bind (execs is)

/-! ## Programs -/

/-- A program counter and a machine. -/
structure State where
  pc : ℕ
  cpu : Cpu

/-- The position a label is bound at. -/
def labelPos (code : List Item) (l : ℕ) : Option ℕ := code.findIdx? (· = .label l)

/-- One item.  `ret` does not step: `run` stops there. -/
def step (code : List Item) (s : State) : Option State :=
  match code[s.pc]? with
  | some (.instr i) => (i.exec s.cpu).map fun c => ⟨s.pc + 1, c⟩
  | some (.label _) => some ⟨s.pc + 1, s.cpu⟩
  | some (.b l) => (labelPos code l).map fun p => ⟨p, s.cpu⟩
  | some (.bcond cond l) =>
      if cond.holds s.cpu.flags then (labelPos code l).map fun p => ⟨p, s.cpu⟩
      else some ⟨s.pc + 1, s.cpu⟩
  | some (.ret _) => none
  | none => none

/-- Run to the first `ret`: the address returned to, and the machine there. -/
def run (code : List Item) : ℕ → State → Option (Word × Cpu)
  | 0, _ => none
  | fuel + 1, s =>
      match code[s.pc]? with
      | some (.ret r) => some (s.cpu.get r, s.cpu)
      | _ => (step code s).bind (run code fuel)

end A64
