import ApexEngine.Jit.Comparison
import ApexEngine.Jit.FrameLaw
import ApexEngine.Machine.Encoding

/-!
# The assembler refuses nothing

The compilers hand their instructions to an assembler and do not look at what it returns.  An
instruction that cannot be encoded would be left out without notice, and the kernel would
compute something else.  So what the rest of the model takes for granted, that the code is what
was emitted, rests on the encodings of A64.

The bit-sliced compiler is safe: its limits of eight fields and eight arithmetic nodes keep
every offset small.  The scalar compiler has no limits of its own.  The node with index `i`
is stored at offset `8 * i`, and the offset of a store has twelve bits, so the code of an
expression is encodable exactly when the expression has no more than 4096 nodes
(`compile_encodable_iff`).  The pool of the builder has 128.

The buffer that is reserved for the code has 65536 bytes.  A bit-sliced kernel needs 1048 of
them at most, so that the dump of its first 2048 bytes is a dump of all of it, and a scalar
kernel of a pool needs 6716.
-/

namespace ApexEngine
namespace Jit

open A64 (Word Reg Instr Item CodeEncodable codeSize)

/-! ## Immediates and offsets -/

section Pieces

variable {out : Reg}

/-- The parts of a 64-bit immediate. -/
theorem encodable_emitMovImm64 (hout : out ≠ .sp) (imm : Word) :
    ∀ i ∈ emitMovImm64 out imm, i.Encodable := by
  have hlow : ∀ v : Word, (v &&& 0xFFFF).toNat < 2 ^ 16 := fun v => by
    rw [BitVec.toNat_and]
    exact Nat.lt_of_le_of_lt Nat.and_le_right (by decide)
  simp only [emitMovImm64, List.forall_mem_cons, List.not_mem_nil, false_implies, implies_true,
    and_true]
  exact ⟨⟨hout, hlow _, rfl, by decide⟩, ⟨hout, hlow _, rfl, by decide⟩,
    ⟨hout, hlow _, rfl, by decide⟩, hout, hlow _, rfl, by decide⟩

/-- The first 4096 words can be addressed by an immediate. -/
theorem isOffsetImm_words {k : ℕ} (hk : k < 4096) : A64.IsOffsetImm (BitVec.ofNat 64 (8 * k)) := by
  refine Or.inl ?_
  rw [BitVec.toNat_ofNat, Nat.mod_eq_of_lt (show 8 * k < 2 ^ 64 by omega)]
  omega

/-- The offset of a slot of the scratchpad. -/
theorem isArithImm_slot {k : ℕ} (hk : k < 8) :
    A64.IsArithImm (BitVec.ofInt 64 ((k : ℤ) * 512)) := by
  refine Or.inl ?_
  rw [show (k : ℤ) * 512 = ((k * 512 : ℕ) : ℤ) by push_cast; rfl, BitVec.ofInt_natCast,
    BitVec.toNat_ofNat, Nat.mod_eq_of_lt (by omega)]
  omega

theorem carryRegs_gp (i : ℤ) : carryRegs i ≠ .sp := by
  have h := carryRegs_mem i
  rintro heq
  rw [heq] at h
  exact absurd h (by decide)

theorem cmpRegs_gp (i : ℕ) : cmpGtRegs i ≠ .sp ∧ cmpEqRegs i ≠ .sp := by
  obtain ⟨hgt, heq⟩ := cmpRegs_mem i
  constructor
  · rintro h
    rw [h] at hgt
    exact absurd hgt (by decide)
  · rintro h
    rw [h] at heq
    exact absurd heq (by decide)

theorem encodable_loadBit (hout : out ≠ .sp) : ∀ i ∈ loadBit out, i.Encodable := by
  simp only [loadBit, List.forall_mem_cons, List.not_mem_nil, false_implies, implies_true, and_true]
  exact ⟨by decide, hout, by decide, by decide, Or.inl rfl⟩

/-- What `CircuitLibrary::emit_gt_64` emits, for registers that are not the stack pointer. -/
theorem encodable_emitGt64 {a b gt eq : Reg} (ha : a ≠ .sp) (hb : b ≠ .sp) (hgt : gt ≠ .sp)
    (heq : eq ≠ .sp) : ∀ i ∈ emitGt64 a b gt eq, i.Encodable := by
  have h6 : Reg.x6 ≠ .sp := by decide
  have h7 : Reg.x7 ≠ .sp := by decide
  simp only [emitGt64, List.forall_mem_cons, List.not_mem_nil, false_implies, implies_true, and_true]
  exact ⟨⟨h6, ha, hb⟩, ⟨h7, heq, h6⟩, ⟨hgt, hgt, h7⟩, ⟨h6, ha, hb⟩, heq, heq, h6⟩

end Pieces

/-! ## Bit-sliced code -/

section Sliced

variable {g : Graph} {root : NodeRef} {ms : NodeMetas} {konst : NodeRef → Word} {pool : ConstPool}
  (halloc : Allocated g root ms konst pool) (hfields : (g.fieldNames root).length ≤ 8)
  (harith : (g.arithmeticNodes root).length ≤ 8)

include halloc harith

/-- A node with a slot has one of eight. -/
theorem isArithImm_slotId {n : NodeRef} (hn : n ∈ g.arithmeticNodes root) :
    A64.IsArithImm (BitVec.ofInt 64 ((ms n).slotId * 512)) := by
  rw [halloc.slotId n hn]
  exact isArithImm_slot ((List.idxOf_lt_length_of_mem hn).trans_le harith)

theorem encodable_storeResult {n : NodeRef} (hn : n ∈ g.arithmeticNodes root) :
    ∀ i ∈ storeResult ms n, i.Encodable := by
  simp only [storeResult, List.forall_mem_cons, List.not_mem_nil, false_implies, implies_true,
    and_true]
  exact ⟨by decide, ⟨by decide, by decide, isArithImm_slotId halloc harith hn⟩, by decide⟩

include hfields

/-- **The load of an operand** can be encoded. -/
theorem encodable_getOperandAtBit {operand : Option NodeRef}
    (hlisted : ∀ n, operand = some n → n ∈ g.listing root) {out : Reg} (hout : out ≠ .sp) :
    ∀ i ∈ getOperandAtBit g ms konst operand out, i.Encodable := by
  cases operand with
  | none => exact fun i hi => absurd hi List.not_mem_nil
  | some n =>
    have hn := hlisted n rfl
    simp only [getOperandAtBit]
    split
    · rename_i hk
      rw [halloc.fieldIdx n hn hk, field_offset, List.forall_mem_cons]
      have hidx := List.idxOf_lt_length_of_mem (Graph.name_mem_fieldNames hn hk)
      exact ⟨⟨by decide, by decide, isOffsetImm_words (by omega)⟩, encodable_loadBit hout⟩
    · exact List.forall_mem_append.mpr
        ⟨encodable_emitMovImm64 (by decide) _, encodable_loadBit hout⟩
    · rename_i hload hconst
      split
      · rename_i hslot
        have harithmetic := halloc.mem_arithmeticNodes hn hload hconst hslot.1
        simp only [loadSlot, List.forall_mem_cons, List.not_mem_nil, false_implies, implies_true,
          and_true]
        exact ⟨by decide, ⟨by decide, by decide, isArithImm_slotId halloc harith harithmetic⟩, hout,
          by decide, by decide, Or.inl rfl⟩
      · exact fun i hi => absurd hi List.not_mem_nil

theorem encodable_operands {n : NodeRef} (hn : n ∈ g.listing root) :
    ∀ i ∈ getOperandAtBit g ms konst (g.node n).left .x2 ++
      getOperandAtBit g ms konst (g.node n).right .x3, i.Encodable :=
  List.forall_mem_append.mpr
    ⟨encodable_getOperandAtBit halloc hfields harith (fun _ hc => Graph.mem_listing_left hn hc)
        (by decide),
      encodable_getOperandAtBit halloc hfields harith (fun _ hc => Graph.mem_listing_right hn hc)
        (by decide)⟩

theorem encodable_arithmeticBlock {n : NodeRef} (hn : n ∈ g.arithmeticNodes root) :
    ∀ i ∈ arithmeticBlock g ms konst n, i.Encodable := by
  have hcarry := carryRegs_gp (ms n).carryReg
  have hadd : ∀ i ∈ emitAdd (carryRegs (ms n).carryReg), i.Encodable := by
    simp only [emitAdd, List.forall_mem_cons, List.not_mem_nil, false_implies, implies_true, and_true]
    exact ⟨by decide, ⟨by decide, by decide, hcarry⟩, by decide, ⟨by decide, by decide, hcarry⟩,
      hcarry, by decide⟩
  have hsub : ∀ i ∈ emitSub (carryRegs (ms n).carryReg), i.Encodable := by
    simp only [emitSub, List.forall_mem_cons, List.not_mem_nil, false_implies, implies_true, and_true]
    exact ⟨by decide, by decide, ⟨by decide, by decide, hcarry⟩, by decide,
      ⟨by decide, hcarry, by decide⟩, hcarry, by decide⟩
  unfold arithmeticBlock
  split
  · refine List.forall_mem_append.mpr ⟨List.forall_mem_append.mpr ⟨encodable_operands halloc hfields
      harith ((g.mem_arithmeticNodes root).mp hn).1, ?_⟩, encodable_storeResult halloc harith hn⟩
    split
    · exact hadd
    · exact hsub
  · exact fun i hi => absurd hi List.not_mem_nil

theorem encodable_comparisonBlockAt {n : NodeRef} (hn : n ∈ g.listing root) (k : ℕ) :
    ∀ i ∈ comparisonBlockAt g ms konst n k, i.Encodable := by
  obtain ⟨hgt, heq⟩ := cmpRegs_gp k
  have hoperands := encodable_operands halloc hfields harith hn
  unfold comparisonBlockAt
  split
  · exact List.forall_mem_append.mpr ⟨hoperands, encodable_emitGt64 (by decide) (by decide) hgt heq⟩
  · exact List.forall_mem_append.mpr ⟨hoperands, encodable_emitGt64 (by decide) (by decide) hgt heq⟩
  · exact fun i hi => absurd hi List.not_mem_nil

/-- **Bit-sliced code is encodable.** -/
theorem encodable_instrs_expressionCode :
    ∀ i ∈ A64.instrs (g.expressionCode root ms konst), i.Encodable := by
  have hcarries : ∀ n, ∀ i ∈ carryInit g ms n, i.Encodable := by
    intro n
    have hcarry := carryRegs_gp (ms n).carryReg
    have himm : ∀ v : Word, A64.IsMoveImm v →
        ∀ i ∈ [Instr.mov (carryRegs (ms n).carryReg) (.imm v)], i.Encodable := fun v hv i hi => by
      rw [List.mem_singleton.mp hi]
      exact ⟨hcarry, hv⟩
    unfold carryInit
    split
    · split
      · exact himm 0 (by decide)
      · exact himm 1 (by decide)
      · exact fun i hi => absurd hi List.not_mem_nil
    · exact fun i hi => absurd hi List.not_mem_nil
  have hinits : ∀ k, ∀ i ∈ comparisonInit k, i.Encodable := by
    intro k
    obtain ⟨hgt, heq⟩ := cmpRegs_gp k
    simp only [comparisonInit, List.forall_mem_cons, List.not_mem_nil, false_implies, implies_true,
      and_true]
    exact ⟨⟨hgt, by decide⟩, heq, by decide⟩
  have hfold : ∀ k, ∀ i ∈ foldMasks k, i.Encodable := by
    intro k
    unfold foldMasks
    split
    · refine List.forall_mem_cons.mpr ⟨Or.inl ⟨by decide, (cmpRegs_gp 0).1⟩, ?_⟩
      rintro i hi
      obtain ⟨j, -, rfl⟩ := List.mem_map.mp hi
      exact ⟨by decide, by decide, (cmpRegs_gp (j + 1)).1⟩
    · decide
  have hcompared : ∀ p ∈ ((collectComparisons g root).take 3).zipIdx, p.1 ∈ g.listing root := by
    intro p hp
    have hmem := List.mem_of_mem_take (List.fst_mem_of_mem_zipIdx hp)
    exact (g.mem_listing root).mpr (mem_collectComparisons hmem).1
  simp only [Graph.expressionCode, emitExpression, A64.instrs_append, A64.instrs_map_instr,
    A64.instrs_loopItems, A64.instrs_ret, phase1Entry, phase2Entry, phase1Body, phase2Body,
    List.forall_mem_append, List.append_nil]
  refine ⟨⟨⟨⟨⟨⟨?_, ?_⟩, ?_⟩, ?_, ?_, ?_⟩, ?_, ?_⟩, ?_, ?_, ?_⟩, ?_, ?_⟩
  · decide
  · intro i hi
    obtain ⟨n, -, hi⟩ := List.mem_flatMap.mp hi
    exact hcarries n i hi
  · decide
  · decide
  · intro i hi
    obtain ⟨n, hn, hi⟩ := List.mem_flatMap.mp hi
    exact encodable_arithmeticBlock halloc hfields harith hn i hi
  · decide
  · intro i hi
    obtain ⟨k, -, hi⟩ := List.mem_flatMap.mp hi
    exact hinits k i hi
  · decide
  · decide
  · intro i hi
    obtain ⟨p, hp, hi⟩ := List.mem_flatMap.mp hi
    exact encodable_comparisonBlockAt halloc hfields harith (hcompared p hp) p.2 i hi
  · decide
  · exact hfold _
  · decide

end Sliced

/-! ## Scalar code -/

section Scalar

variable {g : Graph} {root : NodeRef} {ms : NodeMetas}
  (hidx : ∀ n ∈ g.loadNodes root,
    (ms n).fieldIdx = ((g.fieldNames root).idxOf (g.node n).fieldName : ℕ))

/-- There are no more fields than nodes. -/
theorem length_fieldNames_le (g : Graph) (root : NodeRef) :
    (g.fieldNames root).length ≤ (g.listing root).length := by
  have hsub : g.fieldNames root ⊆ (g.listing root).map fun n => (g.node n).fieldName := by
    intro name hname
    rcases mem_distinctNames hname with hnil | ⟨n, hn, rfl⟩
    · exact absurd hnil List.not_mem_nil
    · exact List.mem_map_of_mem ((g.mem_loadNodes root).mp hn).1
  have hnodup : (g.fieldNames root).Nodup := nodup_distinctNames List.nodup_nil _
  exact (hnodup.subperm hsub).length_le.trans_eq (List.length_map _)

include hidx

/-- **The load of an operand** in scalar mode can be encoded. -/
theorem encodable_getOperand (hnodes : (g.listing root).length ≤ 4096) {operand : Option NodeRef}
    (hlisted : ∀ n, operand = some n → n ∈ g.listing root) {out : Reg} (hout : out ≠ .sp) (k : ℕ) :
    ∀ i ∈ getOperand g ms (g.listing root) k operand out, i.Encodable := by
  cases operand with
  | none => exact fun i hi => absurd hi List.not_mem_nil
  | some n =>
    have hn := hlisted n rfl
    simp only [getOperand]
    split
    · rename_i hk
      have hlt := List.idxOf_lt_length_of_mem (Graph.name_mem_fieldNames hn hk)
      have hle := length_fieldNames_le g root
      rw [hidx n ((g.mem_loadNodes root).mpr ⟨hn, hk⟩), field_offset]
      simp only [List.forall_mem_cons, List.not_mem_nil, false_implies, implies_true, and_true]
      exact ⟨⟨by decide, by decide, isOffsetImm_words (by omega)⟩, hout, by decide, by decide,
        Or.inr rfl⟩
    · exact encodable_emitMovImm64 hout _
    · have hlt := opIdx_lt (List.length_pos_of_mem hn) k n
      simp only [List.forall_mem_cons, List.not_mem_nil, false_implies, implies_true, and_true]
      exact ⟨hout, by decide, isOffsetImm_words (by omega)⟩

theorem encodable_scalarBlock (hnodes : (g.listing root).length ≤ 4096) {n : NodeRef}
    (hn : n ∈ g.listing root) {k : ℕ} (hk : k < (g.listing root).length) :
    ∀ i ∈ scalarBlock g ms (g.listing root) n k, i.Encodable := by
  have hop : ∀ i ∈ scalarOp g ms (g.listing root) k n, i.Encodable := by
    unfold scalarOp
    split
    case h_1 | h_2 =>
      exact encodable_getOperand hidx hnodes (fun c hc => Option.some.inj hc ▸ hn) (by decide) k
    all_goals decide
  refine List.forall_mem_append.mpr ⟨List.forall_mem_append.mpr ⟨List.forall_mem_append.mpr
    ⟨?_, ?_⟩, hop⟩, ?_⟩
  · exact encodable_getOperand hidx hnodes (fun _ hc => Graph.mem_listing_left hn hc) (by decide) k
  · exact encodable_getOperand hidx hnodes (fun _ hc => Graph.mem_listing_right hn hc) (by decide) k
  · rintro i hi
    rw [List.mem_singleton.mp hi]
    exact ⟨by decide, by decide, isOffsetImm_words (hk.trans_le hnodes)⟩

/-- **Scalar code of up to 4096 nodes is encodable.** -/
theorem encodable_instrs_scalarCode (hnodes : (g.listing root).length ≤ 4096) :
    ∀ i ∈ A64.instrs (g.scalarCode root ms), i.Encodable := by
  simp only [Graph.scalarCode, emitScalar, A64.instrs_append, A64.instrs_map_instr,
    A64.instrs_loopItems, A64.instrs_ret, scalarBody, List.forall_mem_append, List.append_nil]
  refine ⟨⟨?_, ?_, ?_, ?_⟩, ?_⟩
  · decide
  · decide
  · intro i hi
    obtain ⟨p, hp, hi⟩ := List.mem_flatMap.mp hi
    exact encodable_scalarBlock hidx hnodes (List.fst_mem_of_mem_zipIdx hp)
      (List.snd_lt_of_mem_zipIdx hp) i hi
  · decide
  · decide

omit hidx in
/-- The node with index 4096 has no store. -/
theorem not_encodable_scalarCode (hnodes : 4096 < (g.listing root).length) :
    ¬ CodeEncodable (g.scalarCode root ms) := by
  intro h
  have hblock : ((g.listing root)[4096], 4096) ∈ (g.listing root).zipIdx := by
    rw [List.mk_mem_zipIdx_iff_getElem?]
    exact List.getElem?_eq_getElem hnodes
  have hstore : Instr.str .x5 (.offset .x1 (BitVec.ofNat 64 (8 * 4096))) ∈
      A64.instrs (g.scalarCode root ms) := by
    simp only [Graph.scalarCode, emitScalar, A64.instrs_append, A64.instrs_map_instr,
      A64.instrs_loopItems, scalarBody, List.mem_append]
    refine Or.inl (Or.inl (Or.inr (Or.inr (Or.inl (List.mem_flatMap.mpr ⟨_, hblock, ?_⟩)))))
    exact List.mem_append_right _ (List.mem_singleton_self _)
  exact absurd (h.instr hstore) (by decide)

end Scalar

/-! ## How long the code is -/

section Size

variable {g : Graph} {ms : NodeMetas}

theorem length_flatMap_le {α β : Type} {l : List α} {f : α → List β} {c : ℕ}
    (h : ∀ x ∈ l, (f x).length ≤ c) : (l.flatMap f).length ≤ l.length * c := by
  induction l with
  | nil => exact Nat.zero_le _
  | cons x l ih =>
    rw [List.flatMap_cons, List.length_append, List.length_cons, Nat.succ_mul, Nat.add_comm]
    exact Nat.add_le_add (ih fun y hy => h y (List.mem_cons_of_mem x hy)) (h x List.mem_cons_self)

theorem length_getOperandAtBit_le (konst : NodeRef → Word) (operand : Option NodeRef) (out : Reg) :
    (getOperandAtBit g ms konst operand out).length ≤ 6 := by
  cases operand with
  | none => exact Nat.zero_le _
  | some n =>
    simp only [getOperandAtBit]
    split
    · exact Nat.le_of_ble_eq_true rfl
    · exact Nat.le_of_ble_eq_true rfl
    · split
      · exact Nat.le_of_ble_eq_true rfl
      · exact Nat.zero_le _

theorem length_arithmeticBlock_le (konst : NodeRef → Word) (n : NodeRef) :
    (arithmeticBlock g ms konst n).length ≤ 21 := by
  have hleft : (getOperandAtBit g ms konst (g.node n).left .x2).length ≤ 6 :=
    length_getOperandAtBit_le konst _ _
  have hright : (getOperandAtBit g ms konst (g.node n).right .x3).length ≤ 6 :=
    length_getOperandAtBit_le konst _ _
  have hadder : (if g.kind n = .add then emitAdd (carryRegs (ms n).carryReg)
      else emitSub (carryRegs (ms n).carryReg)).length ≤ 6 := by
    split
    · exact Nat.le_of_ble_eq_true rfl
    · exact Nat.le_of_ble_eq_true rfl
  have hstore : (storeResult ms n).length = 3 := rfl
  unfold arithmeticBlock
  split
  · simp only [List.length_append]
    omega
  · exact Nat.zero_le _

theorem length_comparisonBlockAt_le (konst : NodeRef → Word) (n : NodeRef) (k : ℕ) :
    (comparisonBlockAt g ms konst n k).length ≤ 17 := by
  have hleft : (getOperandAtBit g ms konst (g.node n).left .x2).length ≤ 6 :=
    length_getOperandAtBit_le konst _ _
  have hright : (getOperandAtBit g ms konst (g.node n).right .x3).length ≤ 6 :=
    length_getOperandAtBit_le konst _ _
  have hgt : ∀ a b gt eq, (emitGt64 a b gt eq).length = 5 := fun _ _ _ _ => rfl
  unfold comparisonBlockAt
  split
  · simp only [List.length_append, hgt]
    omega
  · simp only [List.length_append, hgt]
    omega
  · exact Nat.zero_le _

/-- **The size of a bit-sliced kernel.** -/
theorem codeSize_expressionCode_le {root : NodeRef} (konst : NodeRef → Word)
    (harith : (g.arithmeticNodes root).length ≤ 8) :
    codeSize (g.expressionCode root ms konst) ≤ 1048 := by
  have hcarries : ((g.arithmeticNodes root).flatMap (carryInit g ms)).length ≤
      (g.arithmeticNodes root).length * 1 := by
    refine length_flatMap_le fun n _ => ?_
    unfold carryInit
    split
    · split <;> exact Nat.le_of_ble_eq_true rfl
    · exact Nat.zero_le _
  have hblocks : ((g.arithmeticNodes root).flatMap (arithmeticBlock g ms konst)).length ≤
      (g.arithmeticNodes root).length * 21 :=
    length_flatMap_le fun n _ => length_arithmeticBlock_le konst n
  have hthree : ((collectComparisons g root).take 3).zipIdx.length ≤ 3 := by
    rw [List.length_zipIdx]
    exact List.length_take_le _ _
  have hcompared : (((collectComparisons g root).take 3).zipIdx.flatMap fun p =>
      comparisonBlockAt g ms konst p.1 p.2).length ≤
      ((collectComparisons g root).take 3).zipIdx.length * 17 :=
    length_flatMap_le fun p _ => length_comparisonBlockAt_le konst p.1 p.2
  have hinits : ((List.range (min (collectComparisons g root).length 3)).flatMap
      comparisonInit).length ≤ (List.range (min (collectComparisons g root).length 3)).length * 2 :=
    length_flatMap_le fun _ _ => Nat.le_refl 2
  have hfold : (foldMasks (collectComparisons g root).length).length ≤ 3 := by
    unfold foldMasks
    split
    · rw [List.length_cons, List.length_map, List.length_range]
      omega
    · exact Nat.le_of_ble_eq_true rfl
  have hprologue : expressionPrologue.length = 9 := rfl
  have hepilogue : expressionEpilogue.length = 6 := rfl
  rw [List.length_range] at hinits
  simp only [Graph.expressionCode, emitExpression, A64.codeSize_append, A64.codeSize_map_instr,
    A64.codeSize_loopItems, A64.codeSize_ret, phase1Entry, phase2Entry, phase1Body, phase2Body,
    List.length_append, List.length_singleton]
  omega

/-- **The size of a scalar kernel.** -/
theorem codeSize_scalarCode_le (g : Graph) (root : NodeRef) (ms : NodeMetas) :
    codeSize (g.scalarCode root ms) ≤ 52 * (g.listing root).length + 60 := by
  have hoperand : ∀ k operand out, (getOperand g ms (g.listing root) k operand out).length ≤ 4 := by
    intro k operand out
    cases operand with
    | none => exact Nat.zero_le _
    | some n =>
      simp only [getOperand]
      split <;> exact Nat.le_of_ble_eq_true rfl
  have hblock : ∀ n k, (scalarBlock g ms (g.listing root) n k).length ≤ 13 := by
    intro n k
    have hleft := hoperand k (g.node n).left .x2
    have hright := hoperand k (g.node n).right .x3
    have hop : (scalarOp g ms (g.listing root) k n).length ≤ 4 := by
      unfold scalarOp
      split
      case h_1 | h_2 => exact hoperand k (some n) .x5
      all_goals exact Nat.le_of_ble_eq_true rfl
    simp only [scalarBlock, List.length_append, List.length_singleton]
    omega
  have hblocks : ((g.listing root).zipIdx.flatMap fun p =>
      scalarBlock g ms (g.listing root) p.1 p.2).length ≤ (g.listing root).zipIdx.length * 13 :=
    length_flatMap_le fun p _ => hblock p.1 p.2
  have hprologue : scalarPrologue.length = 5 := rfl
  have hepilogue : scalarEpilogue.length = 3 := rfl
  have hrest : scalarAccumulate.length = 3 := rfl
  rw [List.length_zipIdx] at hblocks
  simp only [Graph.scalarCode, emitScalar, A64.codeSize_append, A64.codeSize_map_instr,
    A64.codeSize_loopItems, A64.codeSize_ret, scalarBody, List.length_append, List.length_singleton]
  omega

end Size

/-! ## Threshold code -/

section Threshold

variable (threshold : Word)

/-- `branch0_count`, for the bits below `k`. -/
def branch0Count (k : ℕ) : ℕ := (List.range k).countP fun bit => !threshold.getLsbD bit

theorem length_comparisonBlocks (k : ℕ) :
    (comparisonBlocks threshold k).length = 2 * k + 2 * branch0Count threshold k := by
  induction k with
  | zero => rfl
  | succ k ih =>
    have hblock : (comparisonBlock threshold k).length =
        2 + 2 * if threshold.getLsbD k then 0 else 1 := by
      unfold comparisonBlock
      cases hbit : threshold.getLsbD k with
      | false =>
        rw [if_pos (shiftRight_and_one_eq_zero.mpr hbit)]
        rfl
      | true =>
        rw [if_neg fun h => absurd (hbit.symm.trans (shiftRight_and_one_eq_zero.mp h)) (by simp)]
        rfl
    have hcount : branch0Count threshold (k + 1) =
        branch0Count threshold k + if threshold.getLsbD k then 0 else 1 := by
      rw [branch0Count, List.range_succ, List.countP_append, List.countP_singleton]
      cases threshold.getLsbD k <;> rfl
    rw [comparisonBlocks, List.length_append, ih, hblock, hcount]
    omega

/-- **The threshold kernel is encodable**, and as long as its threshold has zeros. -/
theorem encodable_compileComparison :
    CodeEncodable (compileComparison threshold) ∧
      codeSize (compileComparison threshold) = 532 + 8 * branch0Count threshold 64 := by
  have hblock : ∀ bit, ∀ i ∈ comparisonBlock threshold bit, i.Encodable := by
    intro bit
    unfold comparisonBlock
    split <;> decide
  have hblocks : ∀ k, ∀ i ∈ comparisonBlocks threshold k, i.Encodable := by
    intro k
    induction k with
    | zero => exact fun i hi => absurd hi List.not_mem_nil
    | succ k ih => exact List.forall_mem_append.mpr ⟨hblock k, ih⟩
  have hprologue : ∀ i ∈ comparisonPrologue, i.Encodable := by decide
  have hreturn : ∀ i ∈ [Instr.mov .x0 (.reg .x9)], i.Encodable := by decide
  have hsize : codeSize (compileComparison threshold) = 532 + 8 * branch0Count threshold 64 := by
    have hlength : comparisonPrologue.length = 3 := rfl
    simp only [compileComparison, A64.codeSize_append, A64.codeSize_map_instr, A64.codeSize_ret,
      List.length_append, List.length_singleton, length_comparisonBlocks, hlength]
    omega
  have hcount : branch0Count threshold 64 ≤ 64 :=
    List.countP_le_length.trans_eq List.length_range
  refine ⟨A64.encodable_of_short ?_ ?_ ?_ (by omega), hsize⟩
  · rw [compileComparison, A64.instrs_append, A64.instrs_map_instr, A64.instrs_ret, List.append_nil]
    exact List.forall_mem_append.mpr
      ⟨List.forall_mem_append.mpr ⟨hprologue, hblocks 64⟩, hreturn⟩
  · rw [compileComparison, A64.branchTargets_append, A64.branchTargets_map_instr,
      A64.branchTargets_ret]
    exact fun l hl => absurd hl List.not_mem_nil
  · rw [compileComparison, A64.returnRegs_append, A64.returnRegs_map_instr, A64.returnRegs_ret]
    decide

end Threshold

/-! ## Kernels -/

/-- A bound for the bytes of a kernel of so many nodes. -/
def sizeBound (mode : ExecutionMode) (nodes : ℕ) : ℕ :=
  match mode with
  | .bitSliced => 1048
  | .scalar => 52 * nodes + 60

/-- The reserved buffer is large enough for the nodes of a pool. -/
example : sizeBound .bitSliced NodePool.maxNodes ≤ 2048 ∧
    sizeBound .scalar NodePool.maxNodes ≤ 65536 := by decide

/-- **The assembler refuses nothing** of a bit-sliced kernel, and nothing of a scalar kernel
exactly when its expression has no more than 4096 nodes.  The kernel is no longer than its
bound. -/
theorem compile_encodable_iff {mode : ExecutionMode} {heap : ℕ → Word} {g : Graph} {root : NodeRef}
    {st st' : CompileState} {code : List Item}
    (hcompile : compile mode heap g (some root) st = (some code, st')) :
    (CodeEncodable code ↔ (mode = .scalar → (g.listing root).length ≤ 4096)) ∧
    codeSize code ≤ sizeBound mode (g.listing root).length := by
  cases mode with
  | bitSliced =>
    obtain ⟨konst, rfl, halloc⟩ := allocated_of_compile hcompile
    obtain ⟨hfields, harith⟩ := limits_of_compileExpression heap g root st hcompile
    have hsize : codeSize (g.expressionCode root st'.metas konst) ≤ 1048 :=
      codeSize_expressionCode_le konst harith
    refine ⟨iff_of_true ?_ (by simp), hsize⟩
    refine A64.encodable_of_short (encodable_instrs_expressionCode halloc hfields harith) ?_ ?_
      (by omega)
    · simp [Graph.expressionCode, emitExpression]
    · simp [Graph.expressionCode, emitExpression]
  | scalar =>
    have hidx := fun n hn => fieldIdx_of_compile (n := n) hcompile hn
    rw [compile_scalar] at hcompile
    obtain ⟨hcode, rfl⟩ := Prod.mk.inj hcompile
    obtain rfl := Option.some.inj hcode
    have hsize := codeSize_scalarCode_le g root (scalarMetas g root st.metas)
    refine ⟨⟨fun h _ => ?_, fun h => ?_⟩, hsize⟩
    · by_contra hmany
      exact not_encodable_scalarCode (Nat.lt_of_not_le hmany) h
    · have hnodes := h rfl
      refine A64.encodable_of_short (encodable_instrs_scalarCode hidx hnodes) ?_ ?_ (by omega)
      · simp [Graph.scalarCode, emitScalar]
      · simp [Graph.scalarCode, emitScalar]

/-- The scalar kernel of `GT(Load("a"), Const(5))` has three nodes. -/
theorem compile_encodable_threshold :
    ∃ code st', compile .scalar standardHeap (thresholdGraph (.ofString [97]) 5) (some 2)
        ⟨fun _ => {}, []⟩ = (some code, st') ∧ CodeEncodable code ∧ codeSize code ≤ 216 := by
  obtain ⟨code, st', hcompile⟩ : ∃ code st', compile .scalar standardHeap
      (thresholdGraph (.ofString [97]) 5) (some 2) ⟨fun _ => {}, []⟩ = (some code, st') :=
    ⟨_, _, rfl⟩
  have hnodes : ((thresholdGraph (.ofString [97]) 5).listing 2).length = 3 := by decide
  obtain ⟨hiff, hsize⟩ := compile_encodable_iff hcompile
  rw [hnodes] at hiff hsize
  exact ⟨code, st', hcompile, hiff.mpr fun _ => by omega, hsize⟩

end Jit
end ApexEngine
