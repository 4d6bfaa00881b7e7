import ApexEngine.Jit.KernelFrame

/-!
# The bit-sliced kernel keeps its frame

The blocks of a bit-sliced kernel are put together from a few: the code for an operand, the
load and the store of a node's word at the current bit, and plain arithmetic.  For each it is
enough to list the registers it writes (`spares_of_targets`) and to say where its loads and
stores go.  A store goes to the word of a node's slot, so a block between the labels stays
inside the frame (`writing_arithmeticBlock`, `writing_comparisonBlockAt`).

Phase 1 counts bits up and phase 2 counts them down past zero, where the signed test ends it;
both are run 64 times.
-/

namespace ApexEngine
namespace Jit

open A64 (Word Reg Cpu Instr Item Writing LeadsWriting Kept InFrame Pushed)

/-! ## The blocks of the bit-sliced kernel -/

section Sliced

variable {g : Graph} {root : NodeRef} {ms : NodeMetas} {konst : NodeRef → Word} {pool : ConstPool}
  {c₀ c : Cpu} {k : ℕ} {n : NodeRef}

/-- The registers the code for an operand writes. -/
theorem targets_getOperandAtBit (operand : Option NodeRef) (out : Reg) :
    ∀ i ∈ getOperandAtBit g ms konst operand out, ∀ r ∈ i.targets, r ∈ [Reg.x4, .x14, out] := by
  intro i hi
  unfold getOperandAtBit at hi
  split at hi
  · exact absurd hi List.not_mem_nil
  · split at hi
    · simp only [loadBit, List.mem_cons, List.not_mem_nil, or_false] at hi
      rcases hi with rfl | rfl | rfl <;> simp [Instr.targets, A64.Addr.targets]
    · simp only [emitMovImm64, loadBit, List.mem_append, List.mem_cons, List.not_mem_nil,
        or_false] at hi
      rcases hi with (rfl | rfl | rfl | rfl) | rfl | rfl <;>
        simp [Instr.targets, A64.Addr.targets]
    · split at hi
      · simp only [loadSlot, List.mem_cons, List.not_mem_nil, or_false] at hi
        rcases hi with rfl | rfl | rfl <;> simp [Instr.targets, A64.Addr.targets]
      · exact absurd hi List.not_mem_nil

/-- Load the word of the current bit from planes that can be read. -/
theorem writing_loadBit {W : Word → Prop} {p : Word} {out : Reg}
    (hx15 : c.get .x15 = BitVec.ofNat 64 k) (hx4 : c.get .x4 = p)
    (hload : (c.mem.load (planeWord p k)).isSome) :
    Writing W (loadBit out) c fun _ => True := by
  obtain ⟨v, hv⟩ := Option.isSome_iff_exists.mp hload
  refine .cons rfl (fun a ha => absurd ha List.not_mem_nil) (.ldr (v := v) ?_ (.nil trivial))
  rw [Cpu.operand_imm, hx15, lsl_three, A64.Addr.resolve, BitVec.shiftLeft_zero,
    Cpu.get_set_self _ _ (by decide), Cpu.get_set_of_ne _ _ (by decide), hx4]
  exact hv

/-- The address of a node's word of the current bit. -/
theorem slot_address (h : Inside .bitSliced g root pool c₀ (BitVec.ofNat 64 k) c)
    (hslot : (ms n).slotId = ((ms n).slotId.toNat : ℤ)) {Q : Cpu → Prop} {i : Instr}
    (hw : ∀ d : Cpu, d.mem = c.mem →
      ((A64.Addr.index .x20 .x14 0).resolve d) = (scratchWord c₀ (slotCell ms n k), d) →
      Writing (GivenAt .bitSliced g root ms c₀) [i] d Q) :
    Writing (GivenAt .bitSliced g root ms c₀)
      [.bin .lsl .x14 .x15 (.imm 3),
       .bin .add .x14 .x14 (.imm (BitVec.ofInt 64 ((ms n).slotId * 512))), i] c Q := by
  have hx15 : c.get .x15 = BitVec.ofNat 64 k := h.counter
  have hx20 : c.get .x20 = c₀.get .x1 := h.scratch
  refine .cons rfl (fun a ha => absurd ha List.not_mem_nil)
    (.cons rfl (fun a ha => absurd ha List.not_mem_nil) (hw _ rfl ?_))
  rw [Cpu.operand_imm, Cpu.operand_imm, hx15, lsl_three, Cpu.get_set_self _ _ (by decide),
    slot_offset hslot, A64.Addr.resolve, BitVec.shiftLeft_zero, Cpu.get_set_self _ _ (by decide),
    Cpu.get_set_of_ne _ _ (by decide), Cpu.get_set_of_ne _ _ (by decide), hx20]
  rfl

/-- A shift or an adder that has a slot. -/
theorem Allocated.mem_arithmeticNodes (halloc : Allocated g root ms konst pool)
    (hn : n ∈ g.listing root) (hl : g.kind n ≠ .load) (hk : g.kind n ≠ .const)
    (hplane : (ms n).resultKind = .bitplane) : n ∈ g.arithmeticNodes root := by
  rw [halloc.resultKind n hn] at hplane
  refine (g.mem_arithmeticNodes root).mpr ⟨hn, ?_⟩
  cases hkind : g.kind n <;> simp_all [NodeKind.resultKind, NodeKind.isArithmetic]

/-- **An operand's code stays inside.** -/
theorem writing_getOperandAtBit (hc : Enters .bitSliced g root pool c₀)
    (halloc : Allocated g root ms konst pool) (harith : (g.arithmeticNodes root).length ≤ 8)
    (hk : k < 64) (h : Inside .bitSliced g root pool c₀ (BitVec.ofNat 64 k) c)
    {operand : Option NodeRef} (hlisted : ∀ m, operand = some m → m ∈ g.listing root) {out : Reg}
    (hout : out = .x2 ∨ out = .x3) :
    Writing (GivenAt .bitSliced g root ms c₀) (getOperandAtBit g ms konst operand out) c
      (Inside .bitSliced g root pool c₀ (BitVec.ofNat 64 k)) := by
  have hspares : Spares .bitSliced (getOperandAtBit g ms konst operand out) :=
    spares_of_targets (targets_getOperandAtBit operand out)
      (by rcases hout with rfl | rfl <;> decide)
  refine h.writing hc hspares ?_
  have hx15 : c.get .x15 = BitVec.ofNat 64 k := h.counter
  cases operand with
  | none => exact .nil trivial
  | some n =>
    have hn := hlisted n rfl
    unfold getOperandAtBit
    simp only
    split
    · rename_i hkind
      have hidx := List.idxOf_lt_length_of_mem (g.name_mem_fieldNames hn hkind)
      obtain ⟨p, hp, hplanes⟩ := h.sound.field _ hidx
      have hx19 : c.get .x19 = c₀.get .x0 := h.planes
      rw [halloc.fieldIdx n hn hkind, field_offset]
      refine .ldr (v := p) ?_ (writing_loadBit (k := k) ?_ (Cpu.get_set_self _ _ (by decide)) ?_)
      · rw [A64.Addr.resolve, hx19]
        exact hp
      · exact (Cpu.get_set_of_ne _ _ (by decide)).trans hx15
      · exact hplanes k hk
    · rename_i hkind
      obtain ⟨d, hd, hf, hx4⟩ := execs_emitMovImm64 (show Reg.x4 ≠ .xzr by decide) (konst n) c
      have hplanes := h.sound.konst rfl n ((g.mem_constNodes root).mpr ⟨hn, hkind⟩) (konst n)
        (halloc.konst n hn hkind) k hk
      refine Writing.append (P := fun e => e = d) (.of_execs hd ?_ rfl) ?_
      · simp [emitMovImm64, Instr.isStore]
      · rintro e rfl
        refine writing_loadBit ((hf.get _ (by decide)).trans hx15) hx4 ?_
        rw [hf.mem]
        exact hplanes
    · rename_i hl hconst
      split
      · rename_i hcond
        have hmem := halloc.mem_arithmeticNodes hn hl hconst hcond.1
        have hs := (halloc.slot_lt harith hmem).1
        refine slot_address h hs fun d hdm hres => ?_
        obtain ⟨v, hv⟩ := Option.isSome_iff_exists.mp
          (h.sound.scratch _ (halloc.slotCell_lt harith hmem hk))
        refine .ldr (v := v) ?_ (.nil trivial)
        rw [hres, hdm]
        exact hv
      · exact .nil trivial

/-- The loads of the operands of a node work in registers. -/
theorem writing_operands (hc : Enters .bitSliced g root pool c₀)
    (halloc : Allocated g root ms konst pool) (harith : (g.arithmeticNodes root).length ≤ 8)
    (hk : k < 64) (h : Inside .bitSliced g root pool c₀ (BitVec.ofNat 64 k) c)
    (hn : n ∈ g.listing root) :
    Writing (GivenAt .bitSliced g root ms c₀)
      (getOperandAtBit g ms konst (g.node n).left .x2 ++
        getOperandAtBit g ms konst (g.node n).right .x3) c
      (Inside .bitSliced g root pool c₀ (BitVec.ofNat 64 k)) := by
  have hchild : ∀ m ∈ (g.node n).children, m ∈ g.listing root :=
    fun m hm => (g.postOrder_listing root).closed hn hm
  refine (writing_getOperandAtBit hc halloc harith hk h (fun m hm => ?_) (Or.inl rfl)).append
    fun d hd => writing_getOperandAtBit hc halloc harith hk hd (fun m hm => ?_) (Or.inr rfl)
  · exact hchild m (Node.mem_children.mpr (Or.inl hm))
  · exact hchild m (Node.mem_children.mpr (Or.inr (Or.inl hm)))

/-- Every carry register is one of eight. -/
theorem carryRegs_mem (i : ℤ) :
    carryRegs i ∈ [Reg.x21, .x22, .x23, .x24, .x25, .x26, .x27, .x28] := by
  rw [carryRegs, List.getD_eq_getElem?_getD]
  cases h : ([Reg.x21, .x22, .x23, .x24, .x25, .x26, .x27, .x28] : List Reg)[i.toNat]? with
  | none => decide
  | some r => exact List.mem_of_getElem? h

/-- A full adder works in registers. -/
theorem writing_adder (hc : Enters .bitSliced g root pool c₀) {count : Word}
    (h : Inside .bitSliced g root pool c₀ count c) {carry : Reg}
    (hcarry : carry ∈ [Reg.x21, .x22, .x23, .x24, .x25, .x26, .x27, .x28]) :
    Writing (GivenAt .bitSliced g root ms c₀)
      (if g.kind n = .add then emitAdd carry else emitSub carry) c
      (Inside .bitSliced g root pool c₀ count) := by
  have htargets : ∀ is : List Instr, is = emitAdd carry ∨ is = emitSub carry →
      (∀ i ∈ is, i.isPlain = true) ∧
        ∀ i ∈ is, ∀ r ∈ i.targets, r ∈ [Reg.x5, .x6, .x7, .x14, carry] := by
    rintro is (rfl | rfl) <;> constructor <;>
      simp [emitAdd, emitSub, Instr.isPlain, Instr.targets]
  obtain ⟨hplain, htarget⟩ := htargets (if g.kind n = .add then emitAdd carry else emitSub carry)
    (by split <;> simp)
  refine h.plain hc hplain (spares_of_targets htarget ?_)
  clear htargets hplain htarget
  revert carry
  decide

/-- The store of a result goes to the node's slot. -/
theorem writing_storeResult (hc : Enters .bitSliced g root pool c₀)
    (halloc : Allocated g root ms konst pool) (harith : (g.arithmeticNodes root).length ≤ 8)
    (hk : k < 64) (h : Inside .bitSliced g root pool c₀ (BitVec.ofNat 64 k) c)
    (hn : n ∈ g.arithmeticNodes root) :
    Writing (GivenAt .bitSliced g root ms c₀) (storeResult ms n) c
      (Inside .bitSliced g root pool c₀ (BitVec.ofNat 64 k)) := by
  have htargets : ∀ i ∈ storeResult ms n, ∀ r ∈ i.targets, r ∈ [Reg.x14] := by
    simp [storeResult, Instr.targets, A64.Addr.targets]
  refine h.writing hc (spares_of_targets htargets (by decide))
    (slot_address h (halloc.slot_lt harith hn).1 fun d hdm hres => ?_)
  have hlt := halloc.slotCell_lt harith hn hk
  obtain ⟨μ, hμ⟩ := A64.Memory.exists_store (h.sound.scratch _ hlt) (d.get .x5)
  have hstore : d.mem.store ((A64.Addr.index .x20 .x14 0).resolve d).1 (d.get .x5) = some μ := by
    rw [hres, hdm]
    exact hμ
  refine .str ?_ hstore (.nil trivial)
  rw [hres]
  exact ⟨_, hlt, ⟨n, hn, k, hk, rfl⟩, rfl⟩

/-- **The code of an arithmetic node** writes the word of its slot. -/
theorem writing_arithmeticBlock (hc : Enters .bitSliced g root pool c₀)
    (halloc : Allocated g root ms konst pool) (harith : (g.arithmeticNodes root).length ≤ 8)
    (hk : k < 64) (h : Inside .bitSliced g root pool c₀ (BitVec.ofNat 64 k) c)
    (hn : n ∈ g.arithmeticNodes root) :
    Writing (GivenAt .bitSliced g root ms c₀) (arithmeticBlock g ms konst n) c
      (Inside .bitSliced g root pool c₀ (BitVec.ofNat 64 k)) := by
  unfold arithmeticBlock
  split
  · refine Writing.append (Writing.append
      (writing_operands hc halloc harith hk h ((g.mem_arithmeticNodes root).mp hn).1)
      fun d hd => writing_adder hc hd (carryRegs_mem _)) fun d hd => ?_
    exact writing_storeResult hc halloc harith hk hd hn
  · exact .nil h

theorem cmpRegs_mem (i : ℕ) : cmpGtRegs i ∈ [Reg.x8, .x10, .x12] ∧
    cmpEqRegs i ∈ [Reg.x9, .x11, .x13] := by
  constructor
  · rw [cmpGtRegs, List.getD_eq_getElem?_getD]
    cases h : ([Reg.x8, .x10, .x12] : List Reg)[i]? with
    | none => decide
    | some r => exact List.mem_of_getElem? h
  · rw [cmpEqRegs, List.getD_eq_getElem?_getD]
    cases h : ([Reg.x9, .x11, .x13] : List Reg)[i]? with
    | none => decide
    | some r => exact List.mem_of_getElem? h

/-- **The code of a comparison** writes only what the kernel is given. -/
theorem writing_comparisonBlockAt (hc : Enters .bitSliced g root pool c₀)
    (halloc : Allocated g root ms konst pool) (harith : (g.arithmeticNodes root).length ≤ 8)
    (hk : k < 64) (h : Inside .bitSliced g root pool c₀ (BitVec.ofNat 64 k) c)
    (hn : n ∈ g.listing root) (i : ℕ) :
    Writing (GivenAt .bitSliced g root ms c₀) (comparisonBlockAt g ms konst n i) c
      (Inside .bitSliced g root pool c₀ (BitVec.ofNat 64 k)) := by
  have hgt : ∀ (a b : Reg) (d : Cpu), Inside .bitSliced g root pool c₀ (BitVec.ofNat 64 k) d →
      Writing (GivenAt .bitSliced g root ms c₀) (emitGt64 a b (cmpGtRegs i) (cmpEqRegs i)) d
        (Inside .bitSliced g root pool c₀ (BitVec.ofNat 64 k)) := by
    intro a b d hd
    have htargets : ∀ j ∈ emitGt64 a b (cmpGtRegs i) (cmpEqRegs i), ∀ r ∈ j.targets,
        r ∈ [Reg.x6, .x7, cmpGtRegs i, cmpEqRegs i] := by simp [emitGt64, Instr.targets]
    refine hd.plain hc (by simp [emitGt64, Instr.isPlain]) (spares_of_targets htargets ?_)
    clear htargets
    obtain ⟨hg, he⟩ := cmpRegs_mem i
    generalize cmpGtRegs i = x at hg
    generalize cmpEqRegs i = y at he
    revert x y
    decide
  unfold comparisonBlockAt
  split
  · exact (writing_operands hc halloc harith hk h hn).append fun d hd => hgt _ _ d hd
  · exact (writing_operands hc halloc harith hk h hn).append fun d hd => hgt _ _ d hd
  · exact .nil h

/-! ### The loops -/

/-- The body of the first loop goes to the next bit. -/
theorem writing_phase1Body (hc : Enters .bitSliced g root pool c₀)
    (halloc : Allocated g root ms konst pool) (harith : (g.arithmeticNodes root).length ≤ 8)
    (hk : k < 64) (h : Inside .bitSliced g root pool c₀ (BitVec.ofNat 64 k) c) :
    Writing (GivenAt .bitSliced g root ms c₀) (phase1Body g ms konst (g.arithmeticNodes root)) c
      (Inside .bitSliced g root pool c₀ (BitVec.ofNat 64 (k + 1))) := by
  refine (Writing.flatMap (fun n hn d hd => writing_arithmeticBlock hc halloc harith hk hd hn)
    h).append fun d hd => .cons rfl (fun a ha => absurd ha List.not_mem_nil) (.nil ?_)
  have hx15 : d.get .x15 = BitVec.ofNat 64 k := hd.counter
  rw [hx15, BitVec.ofNat_add]
  exact hd.setCounter _

/-- The body of the second loop goes to the bit below. -/
theorem writing_phase2Body (hc : Enters .bitSliced g root pool c₀)
    (halloc : Allocated g root ms konst pool) (harith : (g.arithmeticNodes root).length ≤ 8)
    (hk : k < 64) (h : Inside .bitSliced g root pool c₀ (BitVec.ofNat 64 k) c) :
    Writing (GivenAt .bitSliced g root ms c₀) (phase2Body g ms konst (collectComparisons g root)) c
      (Inside .bitSliced g root pool c₀ (BitVec.ofNat 64 k - 1)) := by
  have hlisted : ∀ p ∈ ((collectComparisons g root).take 3).zipIdx, p.1 ∈ g.listing root := by
    intro p hp
    have hmem := List.mem_of_mem_take (List.fst_mem_of_mem_zipIdx hp)
    exact (g.mem_listing root).mpr (mem_collectComparisons hmem).1
  refine (Writing.flatMap (fun p hp d hd =>
    writing_comparisonBlockAt hc halloc harith hk hd (hlisted p hp) p.2) h).append fun d hd =>
      .cons rfl (fun a ha => absurd ha List.not_mem_nil) (.nil ?_)
  have hx15 : d.get .x15 = BitVec.ofNat 64 k := hd.counter
  rw [hx15]
  exact hd.setCounter _

variable {code : List Item} {pos : ℕ}

/-- **The first loop** writes the slots of the arithmetic nodes. -/
theorem leads_phase1 (hc : Enters .bitSliced g root pool c₀)
    (halloc : Allocated g root ms konst pool) (harith : (g.arithmeticNodes root).length ≤ 8)
    (hnd : (A64.labels code).Nodup)
    (hat : A64.At code pos (A64.loopItems 0 1 [.cmp .x15 (.imm 64)] .hs
      (phase1Body g ms konst (g.arithmeticNodes root)))) :
    LeadsWriting (GivenAt .bitSliced g root ms c₀) code pos
      (pos + (A64.loopItems 0 1 [.cmp .x15 (.imm 64)] .hs
        (phase1Body g ms konst (g.arithmeticNodes root))).length)
      (65 * (A64.loopItems 0 1 [.cmp .x15 (.imm 64)] .hs
        (phase1Body g ms konst (g.arithmeticNodes root))).length)
      (Inside .bitSliced g root pool c₀ 0)
      (Inside .bitSliced g root pool c₀ (BitVec.ofNat 64 64)) := by
  refine A64.leadsWriting_loop
    (I := fun k => Inside .bitSliced g root pool c₀ (BitVec.ofNat 64 k)) 64 hnd hat ?_ ?_
  · intro k hk c h
    have hx15 : c.get .x15 = BitVec.ofNat 64 k := h.counter
    refine .cons rfl (fun a ha => absurd ha List.not_mem_nil) (.nil ⟨?_, ?_⟩)
    · show A64.Cond.hs.holds (A64.Flags.ofSub (c.get .x15) (BitVec.ofNat 64 64)) = false
      rw [hx15, hs_ofNat (by omega) (by omega), decide_eq_false (by omega)]
    · exact writing_phase1Body hc halloc harith hk (h.with_flags _)
  · intro c h
    have hx15 : c.get .x15 = BitVec.ofNat 64 64 := h.counter
    refine .cons rfl (fun a ha => absurd ha List.not_mem_nil) (.nil ⟨?_, h.with_flags _⟩)
    show A64.Cond.hs.holds (A64.Flags.ofSub (c.get .x15) (BitVec.ofNat 64 64)) = true
    rw [hx15, hs_ofNat (by omega) (by omega), decide_eq_true (by omega)]

/-- **The second loop**, which runs down past zero. -/
theorem leads_phase2 (hc : Enters .bitSliced g root pool c₀)
    (halloc : Allocated g root ms konst pool) (harith : (g.arithmeticNodes root).length ≤ 8)
    (hnd : (A64.labels code).Nodup)
    (hat : A64.At code pos (A64.loopItems 2 3 [.cmp .x15 (.imm 0)] .lt
      (phase2Body g ms konst (collectComparisons g root)))) :
    LeadsWriting (GivenAt .bitSliced g root ms c₀) code pos
      (pos + (A64.loopItems 2 3 [.cmp .x15 (.imm 0)] .lt
        (phase2Body g ms konst (collectComparisons g root))).length)
      (65 * (A64.loopItems 2 3 [.cmp .x15 (.imm 0)] .lt
        (phase2Body g ms konst (collectComparisons g root))).length)
      (Inside .bitSliced g root pool c₀ (BitVec.ofNat 64 64 - 1))
      (Inside .bitSliced g root pool c₀ (BitVec.ofNat 64 0 - 1)) := by
  refine A64.leadsWriting_loop
    (I := fun j => Inside .bitSliced g root pool c₀ (BitVec.ofNat 64 (64 - j) - 1)) 64 hnd hat ?_ ?_
  · intro j hj c h
    rw [show 64 - j = 64 - (j + 1) + 1 by omega, ofNat_succ_sub_one] at h
    have hx15 : c.get .x15 = BitVec.ofNat 64 (64 - (j + 1)) := h.counter
    refine .cons rfl (fun a ha => absurd ha List.not_mem_nil) (.nil ⟨?_, ?_⟩)
    · show A64.Cond.lt.holds (A64.Flags.ofSub (c.get .x15) 0) = false
      rw [hx15, lt_zero, BitVec.msb_eq_false_iff_two_mul_lt, BitVec.toNat_ofNat]
      omega
    · exact writing_phase2Body hc halloc harith (by omega) (h.with_flags _)
  · intro c h
    have hx15 : c.get .x15 = BitVec.ofNat 64 0 - 1 := h.counter
    refine .cons rfl (fun a ha => absurd ha List.not_mem_nil) (.nil ⟨?_, h.with_flags _⟩)
    show A64.Cond.lt.holds (A64.Flags.ofSub (c.get .x15) 0) = true
    rw [hx15, lt_zero]
    decide

/-! ### Around the loops -/

/-- **The entry leads into the first loop.** -/
theorem writing_phase1Entry (hc : Enters .bitSliced g root pool c₀) (nodes : List NodeRef) :
    Writing (Owns .bitSliced g root ms c₀) (phase1Entry g ms nodes) c₀
      (Inside .bitSliced g root pool c₀ 0) := by
  have hprologue : Writing (Owns .bitSliced g root ms c₀) expressionPrologue c₀ fun d =>
      ∃ count, Inside .bitSliced g root pool c₀ count d := by
    have hsplit : expressionPrologue = [A64.push (.x29, .x30)] ++ [.mov .x29 (.reg .sp)] ++
        (savedPairs .bitSliced).tail.map A64.push ++
        [.mov .x19 (.reg .x0), .mov .x20 (.reg .x1)] := rfl
    rw [hsplit]
    refine (writing_pushes hc).append ?_
    rintro d ⟨hd, hget⟩
    refine .cons rfl (fun a ha => absurd ha List.not_mem_nil)
      (.cons rfl (fun a ha => absurd ha List.not_mem_nil) (.nil ⟨_, ?_, ?_, ?_, rfl, ?_, ?_⟩))
    · exact (Cpu.get_set_of_ne _ _ (by decide)).trans
        ((Cpu.get_set_of_ne _ _ (by decide)).trans hd.sp)
    · exact (Cpu.get_set_of_ne _ _ (by decide)).trans
        ((Cpu.get_set_self _ _ (by decide)).trans (hget _ (by decide) (by decide)))
    · exact (Cpu.get_set_self _ _ (by decide)).trans
        ((Cpu.get_set_of_ne _ _ (by decide)).trans (hget _ (by decide) (by decide)))
    · exact fun r hr hnot => absurd hr (by revert r; decide)
    · exact Sound.of_pushed (c := d) hc hd
  have hinits : (∀ i ∈ nodes.flatMap (carryInit g ms), i.isPlain = true) ∧
      ∀ i ∈ nodes.flatMap (carryInit g ms), ∀ r ∈ i.targets,
        r ∈ [Reg.x21, .x22, .x23, .x24, .x25, .x26, .x27, .x28] := by
    have hinit : ∀ n ∈ nodes, ∀ i ∈ carryInit g ms n, i.isPlain = true ∧ ∀ r ∈ i.targets,
        r ∈ [Reg.x21, .x22, .x23, .x24, .x25, .x26, .x27, .x28] := by
      intro n _ i hi
      have hcarry := carryRegs_mem (ms n).carryReg
      unfold carryInit at hi
      split at hi
      · split at hi
        · rw [List.mem_singleton.mp hi]
          exact ⟨rfl, fun r hr => List.mem_singleton.mp hr ▸ hcarry⟩
        · rw [List.mem_singleton.mp hi]
          exact ⟨rfl, fun r hr => List.mem_singleton.mp hr ▸ hcarry⟩
        · exact absurd hi List.not_mem_nil
      · exact absurd hi List.not_mem_nil
    constructor
    · intro i hi
      obtain ⟨n, hn, hi⟩ := List.mem_flatMap.mp hi
      exact (hinit n hn i hi).1
    · intro i hi
      obtain ⟨n, hn, hi⟩ := List.mem_flatMap.mp hi
      exact (hinit n hn i hi).2
  have hcarries : ∀ d, (∃ count, Inside .bitSliced g root pool c₀ count d) →
      Writing (Owns .bitSliced g root ms c₀) (nodes.flatMap (carryInit g ms)) d fun e =>
        ∃ count, Inside .bitSliced g root pool c₀ count e := by
    rintro d ⟨count, hd⟩
    have hplain : Writing (GivenAt .bitSliced g root ms c₀) (nodes.flatMap (carryInit g ms)) d
        (Inside .bitSliced g root pool c₀ count) :=
      hd.plain hc hinits.1 (spares_of_targets hinits.2 (by decide))
    exact (hplain.widen owns_of_given).mono fun e he => ⟨count, he⟩
  refine (hprologue.append hcarries).append ?_
  rintro d ⟨count, hd⟩
  exact .cons rfl (fun a ha => absurd ha List.not_mem_nil) (.nil (hd.setCounter _))

/-- From the first loop to the second. -/
theorem writing_phase2Entry (hc : Enters .bitSliced g root pool c₀) (numComparisons : ℕ)
    {count : Word} (h : Inside .bitSliced g root pool c₀ count c) :
    Writing (Owns .bitSliced g root ms c₀) (phase2Entry numComparisons) c
      (Inside .bitSliced g root pool c₀ (BitVec.ofNat 64 64 - 1)) := by
  have hinit : ∀ i ∈ (List.range (min numComparisons 3)).flatMap comparisonInit,
      i.isPlain = true ∧ ∀ r ∈ i.targets, r ∈ [Reg.x8, .x10, .x12] ++ [.x9, .x11, .x13] := by
    intro i hi
    obtain ⟨j, -, hi⟩ := List.mem_flatMap.mp hi
    obtain ⟨hgt, heq⟩ := cmpRegs_mem j
    simp only [comparisonInit, List.mem_cons, List.not_mem_nil, or_false] at hi
    rcases hi with rfl | rfl
    · exact ⟨rfl, fun r hr => List.mem_append_left _ (List.mem_singleton.mp hr ▸ hgt)⟩
    · exact ⟨rfl, fun r hr => List.mem_append_right _ (List.mem_singleton.mp hr ▸ heq)⟩
  have hplain : Writing (GivenAt .bitSliced g root ms c₀)
      ((List.range (min numComparisons 3)).flatMap comparisonInit) c
      (Inside .bitSliced g root pool c₀ count) :=
    h.plain hc (fun i hi => (hinit i hi).1)
      (spares_of_targets (fun i hi => (hinit i hi).2) (by decide))
  refine (hplain.widen owns_of_given).append fun d hd => ?_
  exact .cons rfl (fun a ha => absurd ha List.not_mem_nil) (.nil (hd.setCounter _))

/-- The masks are folded and the frame is left. -/
theorem writing_tail (hc : Enters .bitSliced g root pool c₀) (numComparisons : ℕ) {count : Word}
    (h : Inside .bitSliced g root pool c₀ count c) :
    Writing (Owns .bitSliced g root ms c₀) (foldMasks numComparisons ++ expressionEpilogue) c
      fun d => ∀ r ∈ .sp :: calleeSaved, d.get r = c₀.get r := by
  have hfold : ∀ i ∈ foldMasks numComparisons, i.isPlain = true ∧ ∀ r ∈ i.targets, r ∈ [Reg.x0] := by
    intro i hi
    unfold foldMasks at hi
    split at hi
    · rcases List.mem_cons.mp hi with rfl | hi
      · simp [Instr.isPlain, Instr.targets]
      · obtain ⟨j, -, rfl⟩ := List.mem_map.mp hi
        simp [Instr.isPlain, Instr.targets]
    · rw [List.mem_singleton.mp hi]
      simp [Instr.isPlain, Instr.targets]
  have hplain : Writing (GivenAt .bitSliced g root ms c₀) (foldMasks numComparisons) c
      (Inside .bitSliced g root pool c₀ count) :=
    h.plain hc (fun i hi => (hfold i hi).1)
      (spares_of_targets (fun i hi => (hfold i hi).2) (by decide))
  exact (hplain.widen owns_of_given).append fun d hd =>
    writing_pops .bitSliced hd.sp hd.sound.saved hd.others

end Sliced

/-! ## The kernel -/

/-- **The bit-sliced kernel keeps the frame.** -/
theorem keepsFrame_expressionCode {g : Graph} {root : NodeRef} {ms : NodeMetas}
    {konst : NodeRef → Word} {pool : ConstPool} {c₀ : Cpu}
    (hc : Enters .bitSliced g root pool c₀) (halloc : Allocated g root ms konst pool)
    (harith : (g.arithmeticNodes root).length ≤ 8) :
    KeepsFrame .bitSliced g root ms (g.expressionCode root ms konst) c₀ := by
  have hnd : (A64.labels (g.expressionCode root ms konst)).Nodup := by
    rw [labels_expressionCode]
    decide
  have hat := twoLoops_expressionCode g root ms konst
  have hentry : ∀ c, c = c₀ → Writing (Owns .bitSliced g root ms c₀)
      (phase1Entry g ms (g.arithmeticNodes root)) c (Inside .bitSliced g root pool c₀ 0) := by
    rintro c rfl
    exact writing_phase1Entry hc (g.arithmeticNodes root)
  have hbetween : ∀ c, Inside .bitSliced g root pool c₀ (BitVec.ofNat 64 64) c →
      Writing (Owns .bitSliced g root ms c₀) (phase2Entry (collectComparisons g root).length) c
        (Inside .bitSliced g root pool c₀ (BitVec.ofNat 64 64 - 1)) := fun c h =>
    writing_phase2Entry hc _ h
  have htail : ∀ c, Inside .bitSliced g root pool c₀ (BitVec.ofNat 64 0 - 1) c →
      Writing (Owns .bitSliced g root ms c₀)
        (foldMasks (collectComparisons g root).length ++ expressionEpilogue) c
        fun d => ∀ r ∈ .sp :: calleeSaved, d.get r = c₀.get r := fun c h => writing_tail hc _ h
  have h₁ := A64.leadsWriting_block hat.atEntry hentry
  have h₂ := leads_phase1 hc halloc harith hnd hat.atFirst
  have h₃ := A64.leadsWriting_block hat.atBetween hbetween
  have h₄ := leads_phase2 hc halloc harith hnd hat.atSecond
  have h₅ := A64.leadsWriting_block hat.atTail htail
  refine keepsFrame_of_leads ((((h₁.trans (h₂.mono owns_of_given)).trans h₃).trans
    (h₄.mono owns_of_given)).trans h₅) hat.atRet ?_
  -- no loop runs more than 64 times, so the fuel is enough
  rw [Caller.fuel, hat.length]
  omega

end Jit
end ApexEngine
