import ApexEngine.Jit.Circuit

/-!
# The bit-sliced kernel runs its circuit

The machine code of `compile_expression` computes what `Circuit` says, on every
graph that was compiled: the operands need not be values, nor even be there.  The
relation between the two is read off the registers and the scratchpad.  During the
first loop (`Adding`) the operand wires are `x2` and `x3`, the carries are their
registers, and the sums are in the slots, those of the current bit for the adders
already done.  During the second loop (`Comparing`) each comparison has its pair of
registers and memory no longer changes.

`callExpr_expressionCode` puts the loops together: the mask returned, the content of
the slots, and that no other cell of the scratchpad is written.
-/

namespace ApexEngine
namespace Jit

open A64 (Word Reg Cpu Instr Frame)
open Circuit (Wires)

/-! ## Resources -/

/-- The cell of an arithmetic node's slot for one bit. -/
def slotCell (ms : NodeMetas) (n : NodeRef) (b : ℕ) : ℕ := 64 * (ms n).slotId.toNat + b

/-- What the leaves of the circuit are connected to: a field to its planes, a
constant to its broadcast, and any other node to the scratchpad at its slot. -/
def inputs (g : Graph) (ms : NodeMetas) (planes : Planes) (scratch : Scratch) (n : NodeRef)
    (b : ℕ) : Word :=
  match g.kind n with
  | .load => ((planes (ms n).fieldIdx.toNat).map fun p => p b).getD 0
  | .const => BitPlane.broadcast (g.node n).constValue b
  | _ => scratch (slotCell ms n b)

/-- A call of a kernel whose field slots are bound, on the thread whose pool has its
constants. -/
structure Callable (caller : Caller) (planes : Planes) (g : Graph) (root : NodeRef)
    (ms : NodeMetas) (constBitPlanes : NodeRef → Word) : Prop where
  allocated : Allocated g root ms constBitPlanes caller.pool
  fields_le : (g.fieldNames root).length ≤ 8
  arithmetic_le : (g.arithmeticNodes root).length ≤ 8
  bound : ∀ i < (g.fieldNames root).length, (planes i).isSome

theorem Allocated.mono {g : Graph} {root : NodeRef} {ms : NodeMetas} {k : NodeRef → Word}
    {pool pool' : ConstPool} (h : Allocated g root ms k pool) (hsub : pool ⊆ pool') :
    Allocated g root ms k pool' :=
  { h with konst := fun n hn hk => hsub (h.konst n hn hk) }

section Resources

variable {g : Graph} {root : NodeRef} {ms : NodeMetas} {k : NodeRef → Word} {pool : ConstPool}

theorem isArithmetic_of_isAdder {kind : NodeKind} (h : kind.isAdder = true) :
    kind.isArithmetic = true := by
  cases kind <;> first | rfl | exact absurd h (by decide)

theorem mem_adderNodes {n : NodeRef} :
    n ∈ g.adderNodes root ↔ n ∈ g.listing root ∧ (g.kind n).isAdder = true := by
  rw [Graph.adderNodes, mem_adders, g.mem_arithmeticNodes root]
  constructor
  · exact fun h => ⟨h.1.1, h.2⟩
  · exact fun h => ⟨⟨h.1, isArithmetic_of_isAdder h.2⟩, h.2⟩

theorem Allocated.slot_lt (h : Allocated g root ms k pool)
    (hle : (g.arithmeticNodes root).length ≤ 8) {n : NodeRef} (hn : n ∈ g.arithmeticNodes root) :
    (ms n).slotId = ((ms n).slotId.toNat : ℤ) ∧ (ms n).slotId.toNat < 8 := by
  have hidx := List.idxOf_lt_length_of_mem hn
  rw [h.slotId n hn, Int.toNat_natCast]
  exact ⟨rfl, by omega⟩

/-- Cells of different nodes or bits are different. -/
theorem Allocated.slotCell_inj (h : Allocated g root ms k pool) {n m : NodeRef}
    (hn : n ∈ g.arithmeticNodes root) (hm : m ∈ g.arithmeticNodes root) {b b' : ℕ} (hb : b < 64)
    (hb' : b' < 64) (heq : slotCell ms n b = slotCell ms m b') : n = m ∧ b = b' := by
  unfold slotCell at heq
  rw [h.slotId n hn, h.slotId m hm, Int.toNat_natCast, Int.toNat_natCast] at heq
  have hidx : (g.arithmeticNodes root).idxOf n = (g.arithmeticNodes root).idxOf m := by omega
  exact ⟨(List.idxOf_inj hn).mp hidx, by omega⟩

theorem Allocated.slotCell_lt (h : Allocated g root ms k pool)
    (hle : (g.arithmeticNodes root).length ≤ 8) {n : NodeRef} (hn : n ∈ g.arithmeticNodes root)
    {b : ℕ} (hb : b < 64) : slotCell ms n b < 512 := by
  have := (h.slot_lt hle hn).2
  unfold slotCell
  omega

/-- A carry register is none of those that are used for anything else. -/
theorem carryRegs_natCast_mem : ∀ i < 8,
    carryRegs (i : ℕ) ∈ [Reg.x21, .x22, .x23, .x24, .x25, .x26, .x27, .x28] := by decide

theorem carryRegs_natCast_inj : ∀ i < 8, ∀ j < 8,
    carryRegs (i : ℕ) = carryRegs (j : ℕ) → i = j := by decide

/-- The carry register of an adder. -/
theorem Allocated.carry_mem (h : Allocated g root ms k pool)
    (hle : (g.arithmeticNodes root).length ≤ 8) {n : NodeRef} (hn : n ∈ g.adderNodes root) :
    carryRegs (ms n).carryReg ∈ [Reg.x21, .x22, .x23, .x24, .x25, .x26, .x27, .x28] := by
  have hidx := List.idxOf_lt_length_of_mem hn
  have hlen : (g.adderNodes root).length ≤ (g.arithmeticNodes root).length :=
    List.length_filter_le _ _
  rw [h.carryReg n hn]
  exact carryRegs_natCast_mem _ (by omega)

theorem Allocated.carry_inj (h : Allocated g root ms k pool)
    (hle : (g.arithmeticNodes root).length ≤ 8) {n m : NodeRef}
    (hn : n ∈ g.adderNodes root) (hm : m ∈ g.adderNodes root)
    (heq : carryRegs (ms n).carryReg = carryRegs (ms m).carryReg) : n = m := by
  have hidx := List.idxOf_lt_length_of_mem hn
  have hidx' := List.idxOf_lt_length_of_mem hm
  have hlen : (g.adderNodes root).length ≤ (g.arithmeticNodes root).length :=
    List.length_filter_le _ _
  rw [h.carryReg n hn, h.carryReg m hm] at heq
  exact (List.idxOf_inj hn).mp (carryRegs_natCast_inj _ (by omega) _ (by omega) heq)

end Resources

/-! ## Loading an operand -/

/-- The registers that stay put during both loops. -/
structure Running (caller : Caller) (planes : Planes) (scratch stack : ℕ → Word) (bit : Word)
    (c : Cpu) : Prop where
  mem : c.mem = caller.memory planes scratch stack
  x15 : c.get .x15 = bit
  x19 : c.get .x19 = caller.layout.cell .planesArray 0
  x20 : c.get .x20 = caller.layout.cell .scratch 0
  sp : c.get .sp = caller.layout.cell .stack 0

section Operand

variable {caller : Caller} {planes : Planes} {scratch S stack : ℕ → Word} {g : Graph}
  {root : NodeRef} {ms : NodeMetas} {konst : NodeRef → Word}

theorem Running.frame {bit : Word} {c c' : Cpu} (h : Running caller planes S stack bit c)
    {rs : List Reg} (hf : Frame rs c c') (h15 : Reg.x15 ∉ rs) (h19 : Reg.x19 ∉ rs)
    (h20 : Reg.x20 ∉ rs) (hsp : Reg.sp ∉ rs) : Running caller planes S stack bit c' where
  mem := hf.mem.trans h.mem
  x15 := (hf.get _ h15).trans h.x15
  x19 := (hf.get _ h19).trans h.x19
  x20 := (hf.get _ h20).trans h.x20
  sp := (hf.get _ hsp).trans h.sp

/-- The offset of a slot's word in the scratchpad. -/
theorem slot_offset {n : NodeRef} (hslot : (ms n).slotId = ((ms n).slotId.toNat : ℤ)) (k : ℕ) :
    A64.BinOp.eval .add (BitVec.ofNat 64 (8 * k)) (BitVec.ofInt 64 ((ms n).slotId * 512)) =
      BitVec.ofNat 64 (8 * slotCell ms n k) := by
  rw [hslot, slotCell]
  show BitVec.ofNat 64 (8 * k) + BitVec.ofInt 64 (((ms n).slotId.toNat * 512 : ℕ) : ℤ) = _
  rw [BitVec.ofInt_natCast, ← BitVec.ofNat_add]
  congr 1
  ring

/-- The tail of a load through `x4`. -/
theorem loadBit_exec {c : Cpu} {k : ℕ} {v : Word} {out : Reg}
    (hx15 : c.get .x15 = BitVec.ofNat 64 k)
    (hload : c.mem.load (c.get .x4 + BitVec.ofNat 64 (8 * k)) = some v) (hz : out ≠ .xzr) :
    ∃ c', A64.execs (loadBit out) c = some c' ∧ Frame [.x14, out] c c' ∧ c'.get out = v := by
  have hload' : (c.set .x14 (BitVec.ofNat 64 (8 * k))).mem.load
      ((A64.Addr.index .x4 .x14 0).resolve (c.set .x14 (BitVec.ofNat 64 (8 * k)))).1 = some v := by
    simpa [A64.Addr.resolve] using hload
  rw [loadBit, A64.execs_bin, Cpu.operand_imm, hx15, lsl_three, A64.execs_ldr _ _ hload',
    A64.execs_nil]
  refine ⟨_, rfl, ((Frame.refl _ c).set (by simp) _).set (by simp) _, ?_⟩
  rw [Cpu.get_set_self _ _ hz]

variable {c : Cpu} {k : ℕ} {n : NodeRef} {out : Reg}

/-- A field: through the plane array to the buffer. -/
theorem loadField_exec (hcall : Callable caller planes g root ms konst) (hk : k < 64)
    (hrun : Running caller planes S stack (BitVec.ofNat 64 k) c) (hn : n ∈ g.listing root)
    (hkind : g.kind n = .load) (hz : out ≠ .xzr) :
    ∃ c', A64.execs
        (.ldr .x4 (.offset .x19 (BitVec.ofInt 64 ((ms n).fieldIdx * 8))) :: loadBit out) c =
        some c' ∧ Frame [.x4, .x14, out] c c' ∧ c'.get out = inputs g ms planes scratch n k := by
  have hidx := List.idxOf_lt_length_of_mem (g.name_mem_fieldNames hn hkind)
  obtain ⟨p, hp⟩ := Option.isSome_iff_exists.mp (hcall.bound _ hidx)
  have hi8 : (g.fieldNames root).idxOf (g.node n).fieldName < 8 := by
    have := hcall.fields_le
    omega
  simp only [inputs, hkind, hcall.allocated.fieldIdx n hn hkind, Int.toNat_natCast, hp,
    Option.map_some, Option.getD_some, field_offset]
  generalize (g.fieldNames root).idxOf (g.node n).fieldName = i at hidx hp hi8
  have hptr : c.mem.load ((A64.Addr.offset .x19 (BitVec.ofNat 64 (8 * i))).resolve c).1 =
      some (caller.layout.cell (.plane ⟨i, hi8⟩) 0) := by
    have hcell := caller.layout.cell_add .planesArray 0 i
    rw [Nat.zero_add] at hcell
    rw [A64.Addr.resolve, hrun.x19, hcell, hrun.mem]
    exact caller.load_planesArray _ _ _ hi8 hp
  rw [A64.execs_ldr _ _ hptr]
  have hword : (c.set .x4 (caller.layout.cell (.plane ⟨i, hi8⟩) 0)).mem.load
      ((c.set .x4 (caller.layout.cell (.plane ⟨i, hi8⟩) 0)).get .x4 + BitVec.ofNat 64 (8 * k)) =
      some (p k) := by
    have hcell := caller.layout.cell_add (.plane ⟨i, hi8⟩) 0 k
    rw [Nat.zero_add] at hcell
    rw [Cpu.get_set_self _ _ (by decide), hcell, Cpu.mem_set, hrun.mem]
    exact caller.load_plane _ _ _ hi8 hp hk
  obtain ⟨c', hc', hf, hv⟩ := loadBit_exec
    (by rw [Cpu.get_set_of_ne _ _ (by decide)]; exact hrun.x15) hword hz
  refine ⟨c', hc', (((Frame.refl [.x4] c).set (by simp) _).trans hf).mono ?_, hv⟩
  exact List.Subset.refl _

/-- A constant: its planes are in the pool. -/
theorem loadConst_exec (hcall : Callable caller planes g root ms konst) (hk : k < 64)
    (hrun : Running caller planes S stack (BitVec.ofNat 64 k) c) (hn : n ∈ g.listing root)
    (hkind : g.kind n = .const) (hz : out ≠ .xzr) :
    ∃ c', A64.execs (emitMovImm64 .x4 (konst n) ++ loadBit out) c = some c' ∧
      Frame [.x4, .x14, out] c c' ∧ c'.get out = inputs g ms planes scratch n k := by
  obtain ⟨d, hd, hdf, hdv⟩ := execs_emitMovImm64 (show Reg.x4 ≠ .xzr by decide) (konst n) c
  obtain ⟨j, hj⟩ := List.get_of_mem (hcall.allocated.konst n hn hkind)
  have hword : d.mem.load (d.get .x4 + BitVec.ofNat 64 (8 * k)) =
      some (BitPlane.broadcast (g.node n).constValue k) := by
    have hbase : konst n = caller.layout.cell (.konst j) 0 := by rw [caller.konst_addr j, hj]
    have hcell := caller.layout.cell_add (.konst j) 0 k
    rw [Nat.zero_add] at hcell
    rw [hdv, hbase, hcell, hdf.mem, hrun.mem, caller.load_konst _ _ _ hk, hj]
  obtain ⟨c', hc', hf, hv⟩ := loadBit_exec ((hdf.get _ (by simp)).trans hrun.x15) hword hz
  refine ⟨c', ?_, (hdf.trans hf).mono (List.Subset.refl _), ?_⟩
  · rw [A64.execs_append, hd]
    exact hc'
  · rw [hv]
    simp only [inputs, hkind]

/-- A node with a slot: the word is in the scratchpad. -/
theorem loadSlot_exec (hcall : Callable caller planes g root ms konst) (hk : k < 64)
    (hrun : Running caller planes S stack (BitVec.ofNat 64 k) c)
    (hn : n ∈ g.arithmeticNodes root) (hz : out ≠ .xzr) :
    ∃ c', A64.execs (loadSlot ms n out) c = some c' ∧ Frame [.x4, .x14, out] c c' ∧
      c'.get out = S (slotCell ms n k) := by
  have hs := (hcall.allocated.slot_lt hcall.arithmetic_le hn).1
  set d := (c.set .x14 (BitVec.ofNat 64 (8 * k))).set .x14
    (BitVec.ofNat 64 (8 * slotCell ms n k)) with hd
  have hword : d.mem.load ((A64.Addr.index .x20 .x14 0).resolve d).1 =
      some (S (slotCell ms n k)) := by
    have hcell := caller.layout.cell_add .scratch 0 (slotCell ms n k)
    rw [Nat.zero_add] at hcell
    have haddr : ((A64.Addr.index .x20 .x14 0).resolve d).1 =
        caller.layout.cell .scratch (slotCell ms n k) := by
      rw [← hcell, A64.Addr.resolve, BitVec.shiftLeft_zero, hd, Cpu.get_set_of_ne _ _ (by decide),
        Cpu.get_set_of_ne _ _ (by decide), hrun.x20, Cpu.get_set_self _ _ (by decide)]
    rw [haddr, hd, Cpu.mem_set, Cpu.mem_set, hrun.mem]
    exact caller.load_scratch _ _ _ (hcall.allocated.slotCell_lt hcall.arithmetic_le hn hk)
  rw [loadSlot, A64.execs_bin, Cpu.operand_imm, hrun.x15, lsl_three, A64.execs_bin,
    Cpu.operand_imm, Cpu.get_set_self _ _ (by decide), slot_offset hs, ← hd,
    A64.execs_ldr _ _ hword, A64.execs_nil]
  refine ⟨_, rfl, (((Frame.refl _ c).set (by simp) _).set (by simp) _).set (by simp) _, ?_⟩
  rw [Cpu.get_set_self _ _ hz]

/-- **An operand's code loads the operand's plane**, and changes nothing but its own
registers.  The node must be listed; when it has a slot, the slot has its plane. -/
theorem getOperandAtBit_exec (hcall : Callable caller planes g root ms konst) (hk : k < 64)
    (hrun : Running caller planes S stack (BitVec.ofNat 64 k) c) {operand : Option NodeRef}
    {sums : NodeRef → Word} (hlisted : ∀ m, operand = some m → m ∈ g.listing root)
    (hslot : ∀ m, operand = some m → m ∈ g.arithmeticNodes root →
      S (slotCell ms m k) = if (g.kind m).isAdder then sums m else inputs g ms planes scratch m k)
    (hz : out ≠ .xzr) :
    ∃ c', A64.execs (getOperandAtBit g ms konst operand out) c = some c' ∧
      Frame [.x4, .x14, out] c c' ∧
      c'.get out =
        Circuit.operandPlane g (inputs g ms planes scratch) k sums operand (c.get out) := by
  cases operand with
  | none => exact ⟨c, rfl, Frame.refl _ c, rfl⟩
  | some n =>
    have hn := hlisted n rfl
    have hrk := hcall.allocated.resultKind n hn
    have harith : (g.kind n).isArithmetic = true → (g.kind n).resultKind = .bitplane →
        ∃ c', A64.execs (if (ms n).resultKind = .bitplane ∧ 0 ≤ (ms n).slotId then
          loadSlot ms n out else []) c = some c' ∧ Frame [.x4, .x14, out] c c' ∧
          c'.get out =
            if (g.kind n).isAdder then sums n else inputs g ms planes scratch n k := by
      intro hka hkr
      have hmem : n ∈ g.arithmeticNodes root := (g.mem_arithmeticNodes root).mpr ⟨hn, hka⟩
      have hs := (hcall.allocated.slot_lt hcall.arithmetic_le hmem).1
      rw [if_pos ⟨hrk.trans hkr, by omega⟩, ← hslot n rfl hmem]
      exact loadSlot_exec hcall hk hrun hmem hz
    have hmask : (g.kind n).resultKind = .bitmask →
        ∃ c', A64.execs (if (ms n).resultKind = .bitplane ∧ 0 ≤ (ms n).slotId then
          loadSlot ms n out else []) c = some c' ∧ Frame [.x4, .x14, out] c c' ∧
          c'.get out = c.get out := by
      intro hkr
      rw [if_neg (by rw [hrk, hkr]; simp)]
      exact ⟨c, rfl, Frame.refl _ c, rfl⟩
    simp only [getOperandAtBit, Circuit.operandPlane]
    cases hkind : g.kind n with
    | load => exact loadField_exec hcall hk hrun hn hkind hz
    | const => exact loadConst_exec hcall hk hrun hn hkind hz
    | add | sub | lsl | lsr =>
      simpa [hkind, NodeKind.isAdder] using harith (by rw [hkind]; rfl) (by rw [hkind]; rfl)
    | gt | lt | eq | and | or | not | select => exact hmask (by rw [hkind]; rfl)

/-- **The operands of a node** are loaded onto the wires `x2` and `x3`. -/
theorem operandsAtBit_exec (hcall : Callable caller planes g root ms konst) (hk : k < 64)
    (hrun : Running caller planes S stack (BitVec.ofNat 64 k) c) {n : NodeRef}
    {sums : NodeRef → Word} (hlisted : ∀ m ∈ (g.node n).children, m ∈ g.listing root)
    (hslot : ∀ m ∈ (g.node n).children, m ∈ g.arithmeticNodes root →
      S (slotCell ms m k) = if (g.kind m).isAdder then sums m else inputs g ms planes scratch m k) :
    ∃ c', A64.execs (getOperandAtBit g ms konst (g.node n).left .x2 ++
        getOperandAtBit g ms konst (g.node n).right .x3) c = some c' ∧
      Frame [.x2, .x3, .x4, .x14] c c' ∧
      c'.get .x2 = Circuit.operandPlane g (inputs g ms planes scratch) k sums (g.node n).left
        (c.get .x2) ∧
      c'.get .x3 = Circuit.operandPlane g (inputs g ms planes scratch) k sums (g.node n).right
        (c.get .x3) := by
  have hleft : ∀ m, (g.node n).left = some m → m ∈ (g.node n).children :=
    fun m hm => Node.mem_children.mpr (Or.inl hm)
  have hright : ∀ m, (g.node n).right = some m → m ∈ (g.node n).children :=
    fun m hm => Node.mem_children.mpr (Or.inr (Or.inl hm))
  obtain ⟨c₁, hc₁, hf₁, hv₁⟩ := getOperandAtBit_exec hcall hk hrun
    (fun m hm => hlisted m (hleft m hm)) (fun m hm => hslot m (hleft m hm))
    (show Reg.x2 ≠ .xzr by decide)
  have hrun₁ := hrun.frame hf₁ (by decide) (by decide) (by decide) (by decide)
  obtain ⟨c₂, hc₂, hf₂, hv₂⟩ := getOperandAtBit_exec hcall hk hrun₁
    (fun m hm => hlisted m (hright m hm)) (fun m hm => hslot m (hright m hm))
    (show Reg.x3 ≠ .xzr by decide)
  rw [hf₁.get .x3 (by decide)] at hv₂
  refine ⟨c₂, ?_, (hf₁.trans hf₂).mono (by decide), (hf₂.get .x2 (by decide)).trans hv₁, hv₂⟩
  rw [A64.execs_append, hc₁, Option.bind_some, hc₂]

end Operand

/-! ## One adder -/

/-- A register the adders use for nothing else. -/
def IsCarryReg (r : Reg) : Prop :=
  r ∉ [Reg.x2, .x3, .x4, .x5, .x6, .x7, .x14, .x15, .x19, .x20, .sp, .xzr]

theorem isCarryReg_of_mem {r : Reg}
    (h : r ∈ [Reg.x21, .x22, .x23, .x24, .x25, .x26, .x27, .x28]) : IsCarryReg r := by
  unfold IsCarryReg
  revert r
  decide

/-- A carry register is not among the temporaries. -/
theorem IsCarryReg.notMem {carry : Reg} (hc : IsCarryReg carry) {rs : List Reg}
    (hrs : rs ⊆ [Reg.x2, .x3, .x4, .x5, .x6, .x7, .x14]) : carry ∉ rs := by
  intro hmem
  refine hc (List.Subset.trans hrs ?_ hmem)
  decide

/-- What a full adder leaves as it was. -/
theorem IsCarryReg.notMem_adder {carry : Reg} (hc : IsCarryReg carry) {r : Reg}
    (hr : r ∈ [Reg.x2, .x3, .x15, .x19, .x20, .sp]) : r ∉ [Reg.x5, .x6, .x7, .x14, carry] := by
  intro hmem
  have hsub : [Reg.x2, .x3, .x15, .x19, .x20, .sp] ⊆
      [Reg.x2, .x3, .x4, .x5, .x6, .x7, .x14, .x15, .x19, .x20, .sp, .xzr] := by decide
  have hne : r ≠ carry := fun heq => hc (heq ▸ hsub hr)
  have hmem' : r ∈ [Reg.x5, .x6, .x7, .x14] := by simpa [hne] using hmem
  clear hmem hne
  revert r
  decide

theorem emitAdd_exec {carry : Reg} (hc : IsCarryReg carry) (c : Cpu) :
    ∃ c', A64.execs (emitAdd carry) c = some c' ∧ Frame [.x5, .x6, .x7, .x14, carry] c c' ∧
      c'.get .x5 = BitPlane.sumPlane (c.get .x2) (c.get .x3) (c.get carry) ∧
      c'.get carry = BitPlane.carryPlane (c.get .x2) (c.get .x3) (c.get carry) := by
  simp only [IsCarryReg, List.mem_cons, List.not_mem_nil, or_false, not_or] at hc
  obtain ⟨h2, h3, -, h5, h6, h7, h14, -, -, -, -, hz⟩ := hc
  refine ⟨_, rfl, ?_, ?_, ?_⟩
  · exact (((((Frame.refl _ c).set (by simp) _).set (by simp) _).set (by simp) _).set (by simp) _).set
      (by simp) _
  · simp [A64.BinOp.eval, BitPlane.sumPlane, Ne.symm h5, h6, hz]
  · simp [A64.BinOp.eval, BitPlane.carryPlane, h5, h6, h7, hz]

theorem emitSub_exec {carry : Reg} (hc : IsCarryReg carry) (c : Cpu) :
    ∃ c', A64.execs (emitSub carry) c = some c' ∧ Frame [.x5, .x6, .x7, .x14, carry] c c' ∧
      c'.get .x5 = BitPlane.sumPlane (c.get .x2) (~~~c.get .x3) (c.get carry) ∧
      c'.get carry = BitPlane.carryPlane (c.get .x2) (~~~c.get .x3) (c.get carry) := by
  simp only [IsCarryReg, List.mem_cons, List.not_mem_nil, or_false, not_or] at hc
  obtain ⟨h2, h3, -, h5, h6, h7, h14, -, -, -, -, hz⟩ := hc
  refine ⟨_, rfl, ?_, ?_, ?_⟩
  · exact ((((((Frame.refl _ c).set (by simp) _).set (by simp) _).set (by simp) _).set (by simp) _).set
      (by simp) _).set (by simp) _
  · simp [A64.BinOp.eval, BitPlane.sumPlane, Ne.symm h5, h6, h7, hz]
  · simp [A64.BinOp.eval, BitPlane.carryPlane, h5, h6, h7, h14, hz, BitVec.and_comm]

/-- **A full adder**, on the complement for a subtraction. -/
theorem fullAdder_exec {carry : Reg} (hc : IsCarryReg carry) (g : Graph) (n : NodeRef) (c : Cpu) :
    ∃ c', A64.execs (if g.kind n = .add then emitAdd carry else emitSub carry) c = some c' ∧
      Frame [.x5, .x6, .x7, .x14, carry] c c' ∧
      c'.get .x5 = BitPlane.sumPlane (c.get .x2) (Circuit.summand g n (c.get .x3)) (c.get carry) ∧
      c'.get carry =
        BitPlane.carryPlane (c.get .x2) (Circuit.summand g n (c.get .x3)) (c.get carry) := by
  unfold Circuit.summand
  by_cases hkind : g.kind n = .add
  · simp only [hkind, if_true]
    exact emitAdd_exec hc c
  · simp only [hkind, if_false]
    exact emitSub_exec hc c

section Adder

variable {caller : Caller} {planes : Planes} {scratch S stack : ℕ → Word} {g : Graph}
  {root : NodeRef} {ms : NodeMetas} {konst : NodeRef → Word} {c : Cpu} {k : ℕ}

/-- The result of an adder goes to its slot. -/
theorem storeResult_exec (hcall : Callable caller planes g root ms konst) (hk : k < 64)
    (hrun : Running caller planes S stack (BitVec.ofNat 64 k) c) {n : NodeRef}
    (hn : n ∈ g.arithmeticNodes root) :
    ∃ c', A64.execs (storeResult ms n) c = some c' ∧
      Running caller planes (Function.update S (slotCell ms n k) (c.get .x5)) stack
        (BitVec.ofNat 64 k) c' ∧ ∀ r, r ≠ .x14 → c'.get r = c.get r := by
  have hs := (hcall.allocated.slot_lt hcall.arithmetic_le hn).1
  set d := (c.set .x14 (BitVec.ofNat 64 (8 * k))).set .x14
    (BitVec.ofNat 64 (8 * slotCell ms n k)) with hd
  have hget : ∀ r, r ≠ .x14 → d.get r = c.get r := fun r hr => by
    rw [hd, Cpu.get_set_of_ne _ _ hr, Cpu.get_set_of_ne _ _ hr]
  have hstore : d.mem.store ((A64.Addr.index .x20 .x14 0).resolve d).1 (d.get .x5) =
      some (caller.memory planes (Function.update S (slotCell ms n k) (c.get .x5)) stack) := by
    have hcell := caller.layout.cell_add .scratch 0 (slotCell ms n k)
    rw [Nat.zero_add] at hcell
    have haddr : ((A64.Addr.index .x20 .x14 0).resolve d).1 =
        caller.layout.cell .scratch (slotCell ms n k) := by
      rw [← hcell, A64.Addr.resolve, BitVec.shiftLeft_zero, hget .x20 (by decide), hrun.x20, hd,
        Cpu.get_set_self _ _ (by decide)]
    rw [haddr, hget .x5 (by decide), hd, Cpu.mem_set, Cpu.mem_set, hrun.mem]
    exact caller.store_scratch _ _ _ (hcall.allocated.slotCell_lt hcall.arithmetic_le hn hk) _
  rw [storeResult, A64.execs_bin, Cpu.operand_imm, hrun.x15, lsl_three, A64.execs_bin,
    Cpu.operand_imm, Cpu.get_set_self _ _ (by decide), slot_offset hs, ← hd,
    A64.execs_str _ _ hstore, A64.execs_nil]
  refine ⟨_, rfl, ⟨rfl, ?_, ?_, ?_, ?_⟩, fun r hr => hget r hr⟩
  · exact (hget _ (by decide)).trans hrun.x15
  · exact (hget _ (by decide)).trans hrun.x19
  · exact (hget _ (by decide)).trans hrun.x20
  · exact (hget _ (by decide)).trans hrun.sp

/-- The machine in the first loop at bit `k`, with the adders in `p` done: the wires
are in their registers, and the slots have the planes of the bits before, which
`T` gives, and of this bit for the adders done. -/
structure Adding (caller : Caller) (planes : Planes) (scratch stack : ℕ → Word) (g : Graph)
    (root : NodeRef) (ms : NodeMetas) (T : ℕ → NodeRef → Word) (k : ℕ) (p : List NodeRef)
    (w : Wires) (S : Scratch) (c : Cpu) : Prop where
  running : Running caller planes S stack (BitVec.ofNat 64 k) c
  a : c.get .x2 = w.a
  b : c.get .x3 = w.b
  carry : ∀ n ∈ g.adderNodes root, c.get (carryRegs (ms n).carryReg) = w.carry n
  done : ∀ n ∈ g.adderNodes root, ∀ b < k, S (slotCell ms n b) = T b n
  out : ∀ n ∈ p, S (slotCell ms n k) = w.out n
  rest : ∀ j, (∀ n ∈ g.adderNodes root, ∀ b < 64, j ≠ slotCell ms n b) → S j = scratch j

variable {T : ℕ → NodeRef → Word} {p : List NodeRef} {w : Wires}

theorem adderNodes_subset {n : NodeRef} (hn : n ∈ g.adderNodes root) :
    n ∈ g.arithmeticNodes root := (mem_adders.mp hn).1

/-- An operand's slot has the operand's plane: a sum of this bit, or what was in the
slot of a shift to begin with. -/
theorem Adding.slot (hcall : Callable caller planes g root ms konst) (hk : k < 64)
    (h : Adding caller planes scratch stack g root ms T k p w S c) {m : NodeRef}
    (hm : m ∈ g.arithmeticNodes root) (hp : (g.kind m).isAdder = true → m ∈ p) :
    S (slotCell ms m k) =
      if (g.kind m).isAdder then w.out m else inputs g ms planes scratch m k := by
  by_cases hadd : (g.kind m).isAdder = true
  · rw [if_pos hadd]
    exact h.out m (hp hadd)
  · rw [if_neg hadd, h.rest]
    · have hka := ((g.mem_arithmeticNodes root).mp hm).2
      unfold inputs
      split
      · rename_i hl
        rw [hl] at hka
        exact absurd hka (by decide)
      · rename_i hl
        rw [hl] at hka
        exact absurd hka (by decide)
      · rfl
    · intro n hn b hb heq
      obtain ⟨rfl, -⟩ := hcall.allocated.slotCell_inj hm (adderNodes_subset hn) hk hb heq
      exact hadd (mem_adders.mp hn).2

theorem Callable.isCarryReg (hcall : Callable caller planes g root ms konst) {m : NodeRef}
    (hm : m ∈ g.adderNodes root) : IsCarryReg (carryRegs (ms m).carryReg) :=
  isCarryReg_of_mem (hcall.allocated.carry_mem hcall.arithmetic_le hm)

/-- **The operands of an adder** are loaded onto the wires; the carries stay. -/
theorem Adding.operands_exec (hcall : Callable caller planes g root ms konst) (hk : k < 64)
    (h : Adding caller planes scratch stack g root ms T k p w S c) {n : NodeRef}
    (hchild : ∀ m ∈ (g.node n).children, m ∈ g.listing root ∧
      ((g.kind m).isAdder = true → m ∈ p)) :
    ∃ c', A64.execs (getOperandAtBit g ms konst (g.node n).left .x2 ++
        getOperandAtBit g ms konst (g.node n).right .x3) c = some c' ∧
      Running caller planes S stack (BitVec.ofNat 64 k) c' ∧
      c'.get .x2 = Circuit.operandPlane g (inputs g ms planes scratch) k w.out (g.node n).left w.a ∧
      c'.get .x3 = Circuit.operandPlane g (inputs g ms planes scratch) k w.out (g.node n).right w.b ∧
      ∀ m ∈ g.adderNodes root, c'.get (carryRegs (ms m).carryReg) = w.carry m := by
  obtain ⟨c', hc', hf, hv₁, hv₂⟩ := operandsAtBit_exec hcall hk h.running
    (fun m hm => (hchild m hm).1) fun m hm ha => h.slot hcall hk ha (hchild m hm).2
  rw [h.a] at hv₁
  rw [h.b] at hv₂
  refine ⟨c', hc', h.running.frame hf (by decide) (by decide) (by decide) (by decide), hv₁, hv₂,
    fun m hm => ?_⟩
  rw [hf.get _ ((hcall.isCarryReg hm).notMem (by decide)), h.carry m hm]

/-- **The code of one adder is one adder of the circuit.** -/
theorem arithmeticBlock_exec (hcall : Callable caller planes g root ms konst) (hk : k < 64)
    (h : Adding caller planes scratch stack g root ms T k p w S c) {n : NodeRef}
    (hn : n ∈ g.adderNodes root) (hnp : n ∉ p) (hpa : ∀ m ∈ p, m ∈ g.adderNodes root)
    (hchild : ∀ m ∈ (g.node n).children, m ∈ g.listing root ∧
      ((g.kind m).isAdder = true → m ∈ p)) :
    ∃ c' S', A64.execs (arithmeticBlock g ms konst n) c = some c' ∧
      Adding caller planes scratch stack g root ms T k (p ++ [n])
        (Circuit.adderStep g (inputs g ms planes scratch) k w n) S' c' := by
  have harith := adderNodes_subset hn
  have hreg := hcall.isCarryReg hn
  obtain ⟨c₂, hc₂, hrun₂, hx2, hx3, hcar₂⟩ := h.operands_exec hcall hk hchild
  obtain ⟨c₃, hc₃, hf₃, hsum, hcar₃⟩ := fullAdder_exec hreg g n c₂
  have hrun₃ := hrun₂.frame hf₃ (hreg.notMem_adder (by decide)) (hreg.notMem_adder (by decide))
    (hreg.notMem_adder (by decide)) (hreg.notMem_adder (by decide))
  obtain ⟨c₄, hc₄, hrun₄, hf₄⟩ := storeResult_exec hcall hk hrun₃ harith
  rw [hx2, hx3, hcar₂ n hn] at hsum hcar₃
  refine ⟨c₄, _, ?_, hrun₄, ?_, ?_, ?_, ?_, ?_, ?_⟩
  · rw [arithmeticBlock, if_pos (mem_adders.mp hn).2, A64.execs_append, A64.execs_append, hc₂,
      Option.bind_some, hc₃, Option.bind_some, hc₄]
  · rw [hf₄ _ (by decide), hf₃.get _ (hreg.notMem_adder (by decide)), hx2]
    rfl
  · rw [hf₄ _ (by decide), hf₃.get _ (hreg.notMem_adder (by decide)), hx3]
    rfl
  · intro m hm
    have hregm := hcall.isCarryReg hm
    have h14 : carryRegs (ms m).carryReg ≠ .x14 := fun heq =>
      @IsCarryReg.notMem _ hregm [.x14] (by decide) (by simp [heq])
    rw [hf₄ _ h14]
    by_cases hmn : m = n
    · subst hmn
      rw [hcar₃]
      simp only [Circuit.adderStep, Function.update_self]
    · have hne : carryRegs (ms m).carryReg ≠ carryRegs (ms n).carryReg := fun heq =>
        hmn (hcall.allocated.carry_inj hcall.arithmetic_le hm hn heq)
      rw [hf₃.get _ (by
        have := @IsCarryReg.notMem _ hregm [.x5, .x6, .x7, .x14] (by decide)
        simp only [List.mem_cons, not_or] at this ⊢
        exact ⟨this.1, this.2.1, this.2.2.1, this.2.2.2.1, hne, this.2.2.2.2⟩), hcar₂ m hm]
      simp only [Circuit.adderStep, Function.update_of_ne hmn]
  · intro m hm b hb
    rw [Function.update_of_ne, h.done m hm b hb]
    intro heq
    have := (hcall.allocated.slotCell_inj (adderNodes_subset hm) harith (by omega) hk heq).2
    omega
  · intro m hm
    by_cases hmn : m = n
    · subst hmn
      rw [Function.update_self, hsum]
      simp only [Circuit.adderStep, Function.update_self]
    · have hmp : m ∈ p := by
        rw [List.mem_append, List.mem_singleton] at hm
        exact hm.resolve_right hmn
      rw [Function.update_of_ne, h.out m hmp]
      · simp only [Circuit.adderStep, Function.update_of_ne hmn]
      · intro heq
        exact hmn (hcall.allocated.slotCell_inj (adderNodes_subset (hpa m hmp)) harith hk hk heq).1
  · intro j hj
    rw [Function.update_of_ne (hj n hn k hk), h.rest j hj]

/-! ## The first loop -/

theorem adderNodes_eq (g : Graph) (root : NodeRef) :
    g.adderNodes root = (g.listing root).filter fun n => (g.kind n).isAdder := by
  rw [Graph.adderNodes, adders, Graph.arithmeticNodes, List.filter_filter]
  refine List.filter_congr fun n _ => ?_
  cases g.kind n <;> rfl

/-- The operands of an adder that are adders come before it. -/
theorem adderNodes_split {p q : List NodeRef} {n : NodeRef}
    (h : g.adderNodes root = p ++ n :: q) :
    n ∉ p ∧ ∀ m ∈ (g.node n).children, m ∈ g.listing root ∧
      ((g.kind m).isAdder = true → m ∈ p) := by
  rw [adderNodes_eq] at h
  exact (g.postOrder_listing root).filter_split h

/-- Shifts have no code in the first loop. -/
theorem flatMap_arithmeticBlock :
    (g.arithmeticNodes root).flatMap (arithmeticBlock g ms konst) =
      (g.adderNodes root).flatMap (arithmeticBlock g ms konst) := by
  rw [Graph.adderNodes, adders]
  induction g.arithmeticNodes root with
  | nil => rfl
  | cons n ns ih =>
    rw [List.flatMap_cons, ih]
    by_cases hk : (g.kind n).isAdder = true
    · rw [List.filter_cons, if_pos hk, List.flatMap_cons]
    · rw [List.filter_cons, if_neg hk, arithmeticBlock, if_neg hk, List.nil_append]

/-- The code of the remaining adders. -/
theorem arithmeticBlocks_exec (hcall : Callable caller planes g root ms konst) (hk : k < 64)
    {q : List NodeRef} (hsplit : g.adderNodes root = p ++ q)
    (h : Adding caller planes scratch stack g root ms T k p w S c) :
    ∃ c' S', A64.execs (q.flatMap (arithmeticBlock g ms konst)) c = some c' ∧
      Adding caller planes scratch stack g root ms T k (p ++ q)
        (q.foldl (Circuit.adderStep g (inputs g ms planes scratch) k) w) S' c' := by
  induction q generalizing p w S c with
  | nil =>
    rw [List.append_nil]
    exact ⟨c, S, rfl, h⟩
  | cons n q ih =>
    obtain ⟨hnp, hchild⟩ := adderNodes_split hsplit
    obtain ⟨c₁, S₁, hc₁, h₁⟩ := arithmeticBlock_exec hcall hk h (by rw [hsplit]; simp) hnp
      (fun m hm => by rw [hsplit]; simp [hm]) hchild
    obtain ⟨c₂, S₂, hc₂, h₂⟩ := ih (by rw [hsplit, List.append_assoc]; rfl) h₁
    refine ⟨c₂, S₂, ?_, ?_⟩
    · rw [List.flatMap_cons, A64.execs_append, hc₁]
      exact hc₂
    · rw [List.append_assoc] at h₂
      exact h₂

/-- The planes the adders of a compiled expression leave behind. -/
def sumTable (g : Graph) (root : NodeRef) (inp : NodeRef → ℕ → Word) (a b : Word) :
    ℕ → NodeRef → Word :=
  Circuit.table g inp (g.adderNodes root) (Circuit.start g a b)

/-- The machine before bit `k` of the first loop, which was entered with `a` and `b`
on the wires. -/
def AtBit (caller : Caller) (planes : Planes) (scratch stack : ℕ → Word) (g : Graph)
    (root : NodeRef) (ms : NodeMetas) (a b : Word) (k : ℕ) (c : Cpu) : Prop :=
  ∃ S, Adding caller planes scratch stack g root ms
    (sumTable g root (inputs g ms planes scratch) a b) k []
    (Circuit.phase1 g (inputs g ms planes scratch) (g.adderNodes root) (Circuit.start g a b) k) S c

variable {a b : Word}

/-- **One iteration of the first loop.** -/
theorem phase1Body_exec (hcall : Callable caller planes g root ms konst) (hk : k < 64)
    (h : AtBit caller planes scratch stack g root ms a b k c) :
    ∃ c', A64.execs (phase1Body g ms konst (g.arithmeticNodes root)) c = some c' ∧
      AtBit caller planes scratch stack g root ms a b (k + 1) c' := by
  obtain ⟨S, h⟩ := h
  obtain ⟨c₁, S₁, hc₁, h₁⟩ := arithmeticBlocks_exec hcall hk (List.nil_append _).symm h
  rw [List.nil_append] at h₁
  have hget : ∀ r, r ≠ .x15 → (c₁.set .x15 (BitVec.ofNat 64 (k + 1))).get r = c₁.get r :=
    fun r hr => Cpu.get_set_of_ne _ _ hr
  refine ⟨c₁.set .x15 (BitVec.ofNat 64 (k + 1)), ?_, S₁, ?_⟩
  · rw [phase1Body, flatMap_arithmeticBlock, A64.execs_append, hc₁, Option.bind_some,
      A64.execs_bin, Cpu.operand_imm, h₁.running.x15, BitVec.ofNat_add]
    rfl
  · constructor
    · refine ⟨h₁.running.mem, ?_, ?_, ?_, ?_⟩
      · rw [Cpu.get_set_self _ _ (by decide)]
      · rw [hget _ (by decide), h₁.running.x19]
      · rw [hget _ (by decide), h₁.running.x20]
      · rw [hget _ (by decide), h₁.running.sp]
    · rw [hget _ (by decide), h₁.a]
      rfl
    · rw [hget _ (by decide), h₁.b]
      rfl
    · intro n hn
      have h15 : carryRegs (ms n).carryReg ≠ .x15 := fun heq =>
        isCarryReg_of_mem (hcall.allocated.carry_mem hcall.arithmetic_le hn) (by simp [heq])
      rw [hget _ h15, h₁.carry n hn]
      rfl
    · intro n hn bit hbit
      rcases Nat.lt_succ_iff_lt_or_eq.mp hbit with hbit | rfl
      · exact h₁.done n hn bit hbit
      · exact h₁.out n hn
    · exact fun n hn => absurd hn (by simp)
    · exact h₁.rest

theorem AtBit.with_flags (h : AtBit caller planes scratch stack g root ms a b k c) (f : A64.Flags) :
    AtBit caller planes scratch stack g root ms a b k { c with flags := f } := by
  obtain ⟨S, h⟩ := h
  exact ⟨S, ⟨⟨h.running.mem, h.running.x15, h.running.x19, h.running.x20, h.running.sp⟩, h.a, h.b,
    h.carry, h.done, h.out, h.rest⟩⟩

/-- **The first loop** runs through the planes and leaves the sums in the scratchpad. -/
theorem phase1_leads (hcall : Callable caller planes g root ms konst) {code : List A64.Item} {pos : ℕ}
    (hnd : (A64.labels code).Nodup)
    (hat : A64.At code pos (A64.loopItems 0 1 [.cmp .x15 (.imm 64)] .hs
      (phase1Body g ms konst (g.arithmeticNodes root)))) :
    A64.Leads code pos
      (pos + (A64.loopItems 0 1 [.cmp .x15 (.imm 64)] .hs
        (phase1Body g ms konst (g.arithmeticNodes root))).length)
      (65 * (A64.loopItems 0 1 [.cmp .x15 (.imm 64)] .hs
        (phase1Body g ms konst (g.arithmeticNodes root))).length)
      (AtBit caller planes scratch stack g root ms a b 0)
      (AtBit caller planes scratch stack g root ms a b 64) := by
  refine A64.leads_loop (I := AtBit caller planes scratch stack g root ms a b) 64 hnd hat ?_ ?_
  · intro k hk c hc
    have hx15 : c.get .x15 = BitVec.ofNat 64 k := by
      obtain ⟨S, h⟩ := hc
      exact h.running.x15
    refine ⟨_, rfl, ?_, ?_⟩
    · show A64.Cond.hs.holds (A64.Flags.ofSub (c.get .x15) (BitVec.ofNat 64 64)) = false
      rw [hx15, hs_ofNat (by omega) (by omega), decide_eq_false (by omega)]
    · obtain ⟨c', hc', h'⟩ := phase1Body_exec hcall hk (hc.with_flags _)
      exact ⟨c', hc', h'⟩
  · intro c hc
    have hx15 : c.get .x15 = BitVec.ofNat 64 64 := by
      obtain ⟨S, h⟩ := hc
      exact h.running.x15
    refine ⟨_, rfl, ?_, hc.with_flags _⟩
    show A64.Cond.hs.holds (A64.Flags.ofSub (c.get .x15) (BitVec.ofNat 64 64)) = true
    rw [hx15, hs_ofNat (by omega) (by omega), decide_eq_true (by omega)]

end Adder
end Jit
end ApexEngine
