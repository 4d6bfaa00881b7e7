import ApexEngine.Machine.Run

/-!
# Which items have an encoding

An instruction of A64 is one word of 32 bits, so its immediates have a few bits each, and a
branch reaches no further than its offset does.  An assembler refuses what does not fit: it
returns an error and adds nothing to the code.  A program whose author does not look at these
errors is then not the program that was written.

`CodeEncodable code` says that nothing of the code is refused.  Number 31 is the stack pointer for
some operands and the zero register for others, so it is part of the condition which of the two
an operand may be.  What the architecture leaves unpredictable, as a load that writes back
its base into its target, is not counted as encodable.

The condition on instructions looks at one of them at a time.  That on branches is met by all
of them when the code is shorter than the reach of a conditional one (`encodable_of_short`).
-/

namespace A64

/-! ## Immediates -/

/-- Sixteen bits in one quarter of a word. -/
def IsWide (v : Word) : Prop := ∃ q < 4, v.toNat % 2 ^ (16 * q) = 0 ∧ v.toNat < 2 ^ (16 * (q + 1))

instance (v : Word) : Decidable (IsWide v) := by
  unfold IsWide
  infer_instance

/-- The immediate of a move: sixteen bits in one quarter, or the complement of such. -/
def IsMoveImm (v : Word) : Prop := IsWide v ∨ IsWide (~~~v)

instance (v : Word) : Decidable (IsMoveImm v) := inferInstanceAs (Decidable (_ ∨ _))

/-- The immediate of an addition, a subtraction or a comparison: twelve bits, or twelve bits
shifted by twelve. -/
def IsArithImm (v : Word) : Prop := v.toNat < 2 ^ 12 ∨ v.toNat % 2 ^ 12 = 0 ∧ v.toNat < 2 ^ 24

instance (v : Word) : Decidable (IsArithImm v) := inferInstanceAs (Decidable (_ ∨ _))

/-- The offset of a load or a store: twelve bits that count words, or nine bits with a sign
that count bytes. -/
def IsOffsetImm (v : Word) : Prop :=
  (v.toNat % 8 = 0 ∧ v.toNat < 8 * 2 ^ 12) ∨ (-256 ≤ v.toInt ∧ v.toInt < 256)

instance (v : Word) : Decidable (IsOffsetImm v) := inferInstanceAs (Decidable (_ ∨ _))

/-- The offset of a pair: seven bits with a sign that count words. -/
def IsPairImm (v : Word) : Prop := v.toInt % 8 = 0 ∧ -512 ≤ v.toInt ∧ v.toInt < 512

instance (v : Word) : Decidable (IsPairImm v) := inferInstanceAs (Decidable (_ ∧ _))

/-! ## Instructions -/

/-- The address of one word.  The base may be the stack pointer, and a base that is written back
is not the register transferred. -/
def Addr.Encodable (r : Reg) : Addr → Prop
  | .offset base imm => base ≠ .xzr ∧ IsOffsetImm imm
  | .index base idx shift => base ≠ .xzr ∧ idx ≠ .sp ∧ (shift = 0 ∨ shift = 3)
  | .pre base imm | .post base imm =>
      base ≠ .xzr ∧ base ≠ r ∧ -256 ≤ imm.toInt ∧ imm.toInt < 256

/-- The address of a pair. -/
def Addr.PairEncodable (r₁ r₂ : Reg) : Addr → Prop
  | .offset base imm => base ≠ .xzr ∧ IsPairImm imm
  | .index .. => False
  | .pre base imm | .post base imm =>
      base ≠ .xzr ∧ base ≠ r₁ ∧ base ≠ r₂ ∧ IsPairImm imm

/-- The operation of a data-processing instruction with an immediate.  The immediates of logical
operations have a format of their own and are not counted. -/
def BinOp.ImmEncodable (d a : Reg) (v : Word) : BinOp → Prop
  | .add | .sub => d ≠ .xzr ∧ a ≠ .xzr ∧ IsArithImm v
  | .lsl => d ≠ .sp ∧ a ≠ .sp ∧ v.toNat < 64
  | .and | .orr | .eor | .bic => False

/-- An instruction has an encoding. -/
def Instr.Encodable : Instr → Prop
  | .mov d (.reg s) => (d ≠ .sp ∧ s ≠ .sp) ∨ (d ≠ .xzr ∧ s ≠ .xzr)
  | .mov d (.imm v) => d ≠ .sp ∧ IsMoveImm v
  | .mvn d s => d ≠ .sp ∧ s ≠ .sp
  | .movz d imm shift | .movk d imm shift =>
      d ≠ .sp ∧ imm.toNat < 2 ^ 16 ∧ shift % 16 = 0 ∧ shift < 64
  | .bin _ d a (.reg b) => d ≠ .sp ∧ a ≠ .sp ∧ b ≠ .sp
  | .bin op d a (.imm v) => op.ImmEncodable d a v
  | .cmp a (.reg b) => a ≠ .sp ∧ b ≠ .sp
  | .cmp a (.imm v) => a ≠ .xzr ∧ IsArithImm v
  | .cset d _ => d ≠ .sp
  | .ldr r m | .str r m => r ≠ .sp ∧ m.Encodable r
  | .stp r₁ r₂ m => r₁ ≠ .sp ∧ r₂ ≠ .sp ∧ m.PairEncodable r₁ r₂
  | .ldp r₁ r₂ m => r₁ ≠ .sp ∧ r₂ ≠ .sp ∧ r₁ ≠ r₂ ∧ m.PairEncodable r₁ r₂

instance (r : Reg) (m : Addr) : Decidable (m.Encodable r) := by
  cases m <;> unfold Addr.Encodable <;> infer_instance

instance (r₁ r₂ : Reg) (m : Addr) : Decidable (m.PairEncodable r₁ r₂) := by
  cases m <;> unfold Addr.PairEncodable <;> infer_instance

instance (op : BinOp) (d a : Reg) (v : Word) : Decidable (op.ImmEncodable d a v) := by
  cases op <;> unfold BinOp.ImmEncodable <;> infer_instance

instance (i : Instr) : Decidable i.Encodable := by
  cases i with
  | mov d o => cases o <;> unfold Instr.Encodable <;> infer_instance
  | bin op d a b => cases b <;> unfold Instr.Encodable <;> infer_instance
  | cmp a b => cases b <;> unfold Instr.Encodable <;> infer_instance
  | _ => unfold Instr.Encodable; infer_instance

/-! ## Code -/

/-- The bytes of an item.  A label has none. -/
def Item.size : Item → ℕ
  | .label _ => 0
  | _ => 4

/-- The bytes of code. -/
def codeSize (code : List Item) : ℕ := (code.map Item.size).sum

/-- The address of the item at a position, counted from the start of the code. -/
def address (code : List Item) (p : ℕ) : ℕ := codeSize (code.take p)

/-- A branch at a position reaches a label, with so many bits for the offset. -/
def Reaches (code : List Item) (p l bits : ℕ) : Prop :=
  ∃ q ∈ labelPos code l, -2 ^ bits ≤ (address code q : ℤ) - address code p ∧
    (address code q : ℤ) - address code p < 2 ^ bits

/-- The item at a position has an encoding. -/
def Item.Encodable (code : List Item) (p : ℕ) : Item → Prop
  | .instr i => i.Encodable
  | .label _ => True
  | .b l => Reaches code p l 27
  | .bcond _ l => Reaches code p l 20
  | .ret r => r ≠ .sp

/-- Everything in the code has an encoding. -/
def CodeEncodable (code : List Item) : Prop :=
  ∀ (p : ℕ) (i : Item), code[p]? = some i → i.Encodable code p

/-! ## The text of a program -/

/-- The instructions of code, in order. -/
def instrs (code : List Item) : List Instr :=
  code.filterMap fun
    | .instr i => some i
    | _ => none

/-- The labels an item branches to. -/
def Item.targets : Item → List ℕ
  | .b l | .bcond _ l => [l]
  | _ => []

/-- The labels that are branched to. -/
def branchTargets (code : List Item) : List ℕ := code.flatMap Item.targets

/-- The registers that are returned through. -/
def returnRegs (code : List Item) : List Reg :=
  code.filterMap fun
    | .ret r => some r
    | _ => none

@[simp] theorem instrs_append (a b : List Item) : instrs (a ++ b) = instrs a ++ instrs b :=
  List.filterMap_append

@[simp] theorem instrs_map_instr (is : List Instr) : instrs (is.map .instr) = is := by
  rw [instrs, List.filterMap_map]
  exact List.filterMap_some

@[simp] theorem instrs_ret (r : Reg) : instrs [.ret r] = [] := rfl

@[simp] theorem instrs_loopItems (head exit : ℕ) (test : List Instr) (cond : Cond)
    (body : List Instr) : instrs (loopItems head exit test cond body) = test ++ body := by
  have hhead : instrs [.label head] = [] := rfl
  have hbranch : instrs [.bcond cond exit] = [] := rfl
  have hback : instrs [.b head, .label exit] = [] := rfl
  simp only [loopItems, instrs_append, instrs_map_instr, hhead, hbranch, hback, List.nil_append,
    List.append_nil]

@[simp] theorem branchTargets_append (a b : List Item) :
    branchTargets (a ++ b) = branchTargets a ++ branchTargets b := List.flatMap_append

@[simp] theorem branchTargets_map_instr (is : List Instr) : branchTargets (is.map .instr) = [] := by
  induction is with
  | nil => rfl
  | cons i is ih => exact ih

@[simp] theorem branchTargets_ret (r : Reg) : branchTargets [.ret r] = [] := rfl

@[simp] theorem branchTargets_loopItems (head exit : ℕ) (test : List Instr) (cond : Cond)
    (body : List Instr) : branchTargets (loopItems head exit test cond body) = [exit, head] := by
  have hhead : branchTargets [.label head] = [] := rfl
  have hbranch : branchTargets [.bcond cond exit] = [exit] := rfl
  have hback : branchTargets [.b head, .label exit] = [head] := rfl
  simp only [loopItems, branchTargets_append, branchTargets_map_instr, hhead, hbranch, hback]
  rfl

@[simp] theorem returnRegs_append (a b : List Item) :
    returnRegs (a ++ b) = returnRegs a ++ returnRegs b := List.filterMap_append

@[simp] theorem returnRegs_map_instr (is : List Instr) : returnRegs (is.map .instr) = [] := by
  induction is with
  | nil => rfl
  | cons i is ih => exact ih

@[simp] theorem returnRegs_ret (r : Reg) : returnRegs [.ret r] = [r] := rfl

@[simp] theorem returnRegs_loopItems (head exit : ℕ) (test : List Instr) (cond : Cond)
    (body : List Instr) : returnRegs (loopItems head exit test cond body) = [] := by
  have hhead : returnRegs [.label head] = [] := rfl
  have hbranch : returnRegs [.bcond cond exit] = [] := rfl
  have hback : returnRegs [.b head, .label exit] = [] := rfl
  simp only [loopItems, returnRegs_append, returnRegs_map_instr, hhead, hbranch, hback]
  rfl

theorem codeSize_append (a b : List Item) : codeSize (a ++ b) = codeSize a + codeSize b := by
  rw [codeSize, List.map_append, List.sum_append]
  rfl

theorem codeSize_map_instr (is : List Instr) : codeSize (is.map .instr) = 4 * is.length := by
  induction is with
  | nil => rfl
  | cons i is ih =>
    rw [List.map_cons, List.length_cons]
    show 4 + codeSize (is.map .instr) = 4 * (is.length + 1)
    omega

theorem codeSize_ret (r : Reg) : codeSize [.ret r] = 4 := rfl

theorem codeSize_loopItems (head exit : ℕ) (test : List Instr) (cond : Cond) (body : List Instr) :
    codeSize (loopItems head exit test cond body) = 4 * (test.length + body.length + 2) := by
  have hhead : codeSize [.label head] = 0 := rfl
  have hbranch : codeSize [.bcond cond exit] = 4 := rfl
  have hback : codeSize [.b head, .label exit] = 4 := rfl
  simp only [loopItems, codeSize_append, codeSize_map_instr, hhead, hbranch, hback]
  omega

/-! ## Short code -/

section Short

variable {code : List Item}

theorem address_le (code : List Item) (p : ℕ) : address code p ≤ codeSize code := by
  have h := codeSize_append (code.take p) (code.drop p)
  rw [List.take_append_drop] at h
  rw [address, h]
  exact Nat.le_add_right _ _

/-- In short code every label that is there is reached. -/
theorem reaches_of_short (hshort : codeSize code < 2 ^ 20) {l : ℕ} (hl : l ∈ labels code) (p : ℕ)
    {bits : ℕ} (hbits : 20 ≤ bits) : Reaches code p l bits := by
  obtain ⟨q, hq⟩ : ∃ q, labelPos code l = some q := by
    refine Option.isSome_iff_exists.mp ?_
    rw [labelPos, List.findIdx?_isSome, List.any_eq_true]
    exact ⟨_, label_mem_iff.mpr hl, decide_eq_true rfl⟩
  have hpow : (2 : ℤ) ^ 20 ≤ 2 ^ bits := pow_le_pow_right₀ (by norm_num) hbits
  have hp := address_le code p
  have hq' := address_le code q
  exact ⟨q, hq, by omega, by omega⟩

/-- **Short code**: when the code is not longer than a conditional branch reaches, it is enough
that every instruction has an encoding and every label that is used is there. -/
theorem encodable_of_short (hinstr : ∀ i ∈ instrs code, i.Encodable)
    (htargets : ∀ l ∈ branchTargets code, l ∈ labels code)
    (hret : .sp ∉ returnRegs code) (hshort : codeSize code < 2 ^ 20) :
    CodeEncodable code := by
  intro p i hi
  have hmem := List.mem_of_getElem? hi
  have hreach : ∀ l ∈ i.targets, ∀ bits, 20 ≤ bits → Reaches code p l bits := fun l hl bits =>
    reaches_of_short hshort (htargets l (List.mem_flatMap.mpr ⟨i, hmem, hl⟩)) p
  cases i with
  | instr i => exact hinstr i (List.mem_filterMap.mpr ⟨_, hmem, rfl⟩)
  | label l => trivial
  | b l => exact hreach l (List.mem_singleton_self l) 27 (by omega)
  | bcond c l => exact hreach l (List.mem_singleton_self l) 20 le_rfl
  | ret r =>
    rintro rfl
    exact hret (List.mem_filterMap.mpr ⟨_, hmem, rfl⟩)

/-- An instruction of encodable code has an encoding. -/
theorem CodeEncodable.instr (h : CodeEncodable code) {i : Instr} (hi : i ∈ instrs code) :
    i.Encodable := by
  obtain ⟨item, hmem, heq⟩ := List.mem_filterMap.mp hi
  obtain ⟨p, hp⟩ := List.mem_iff_getElem?.mp hmem
  have hitem := h p item hp
  cases item with
  | instr j =>
    obtain rfl : j = i := Option.some.inj heq
    exact hitem
  | label _ => exact absurd heq (by simp)
  | b _ => exact absurd heq (by simp)
  | bcond _ _ => exact absurd heq (by simp)
  | ret _ => exact absurd heq (by simp)

end Short
end A64
