import ApexEngine.Jit.FrameLaw
import ApexEngine.Machine.Oblivious

/-!
# Kernels take their time from the expression only

The circuits are written without branches, so that a kernel takes the same time on all data.
What is proved here is more: two calls of a kernel fetch the same instructions and touch the
same addresses, one after the other, whatever the fields, the scratchpad and the other
registers contain (`kernel_oblivious`).  The calls have to agree in what is no data: where
the array of planes, the scratchpad and the stack are, and where the planes of each field
are (`View`).

An address in a kernel is made of a pointer that is given to it, the address of a constant's
planes, which is part of the code, and the counter of the loop.  The one thing that is loaded
and then used as an address is the pointer to the planes of a field, and the words it is
loaded from are written by nobody (`Within.field`).  The frame law has all that is needed
about the registers and the memory; what is added is which accesses the blocks have.
-/

namespace ApexEngine
namespace Jit

open A64 (Word Reg Cpu Instr Item Writing Kept InFrame Oblivious LeadsObliviously accessLists
  accessLists_cons accessLists_append accessLists_plain accessLists_ldr accessLists_singleton)

/-! ## What is no data -/

/-- Where the arrays of a call are. -/
structure View where
  planesArray : Word
  scratch : Word
  stack : Word
  field : ℕ → Word

/-- A machine a kernel is entered with has its arrays there. -/
structure Sees (g : Graph) (root : NodeRef) (V : View) (c : Cpu) : Prop where
  planesArray : c.get .x0 = V.planesArray
  scratch : c.get .x1 = V.scratch
  stack : c.get .sp = V.stack
  field : ∀ i < (g.fieldNames root).length, c.mem.load (planesSlot c i) = some (V.field i)

/-- A kernel in its loops, with its counter at `count`, entered with some data. -/
def Within (mode : ExecutionMode) (g : Graph) (root : NodeRef) (pool : ConstPool) (ms : NodeMetas)
    (V : View) (count : Word) (c : Cpu) : Prop :=
  ∃ c₀, Enters mode g root pool c₀ ∧ Sees g root V c₀ ∧ Inside mode g root pool c₀ count c ∧
    Kept (Owns mode g root ms c₀) c₀.mem c.mem

section Within

variable {mode : ExecutionMode} {g : Graph} {root : NodeRef} {pool : ConstPool} {ms : NodeMetas}
  {V : View} {count count' : Word} {c d : Cpu} {is : List Instr}

theorem Within.planes (h : Within mode g root pool ms V count c) :
    c.get (planesReg mode) = V.planesArray := by
  obtain ⟨c₀, -, hsees, hin, -⟩ := h
  exact hin.planes.trans hsees.planesArray

theorem Within.scratch (h : Within mode g root pool ms V count c) :
    c.get (scratchReg mode) = V.scratch := by
  obtain ⟨c₀, -, hsees, hin, -⟩ := h
  exact hin.scratch.trans hsees.scratch

theorem Within.counter (h : Within mode g root pool ms V count c) :
    c.get (counterReg mode) = count := by
  obtain ⟨c₀, -, -, hin, -⟩ := h
  exact hin.counter

theorem Within.sp (h : Within mode g root pool ms V count c) :
    c.get .sp = A64.below V.stack (frameWords mode) := by
  obtain ⟨c₀, -, hsees, hin, -⟩ := h
  rw [hin.sp, hsees.stack]

/-- **The pointers to the planes stay.** -/
theorem Within.field (h : Within mode g root pool ms V count c) {i : ℕ}
    (hi : i < (g.fieldNames root).length) :
    c.mem.load (V.planesArray + BitVec.ofNat 64 (8 * i)) = some (V.field i) := by
  obtain ⟨c₀, henter, hsees, -, hkept⟩ := h
  have hslot : V.planesArray + BitVec.ofNat 64 (8 * i) = planesSlot c₀ i := by
    rw [planesSlot, hsees.planesArray]
  have helse := (henter.field i hi).1
  rw [hslot, hkept.load_eq ?_, hsees.field i hi]
  rintro (hframe | ⟨j, hj, -, heq⟩)
  · exact helse.1 hframe
  · exact helse.2 j hj heq

/-- **A block is oblivious** when it stays inside the frame and its accesses are known from
the view. -/
theorem Within.oblivious_owns
    (hw : ∀ c₀ c, Enters mode g root pool c₀ → Inside mode g root pool c₀ count c →
      Writing (Owns mode g root ms c₀) is c (Inside mode g root pool c₀ count'))
    (hacc : ∃ L, ∀ c, Within mode g root pool ms V count c → accessLists is c = L) :
    Oblivious (Within mode g root pool ms V count) is (Within mode g root pool ms V count') := by
  obtain ⟨L, hL⟩ := hacc
  refine ⟨L, fun c hc => ?_⟩
  have hcL := hL c hc
  obtain ⟨c₀, henter, hsees, hin, hkept⟩ := hc
  obtain ⟨d, hd, -, hdin, hdkept⟩ := (hw c₀ c henter hin).kept
  exact ⟨d, hd, hcL, c₀, henter, hsees, hdin, hkept.trans hdkept⟩

/-- The same for a block of a loop. -/
theorem Within.oblivious
    (hw : ∀ c₀ c, Enters mode g root pool c₀ → Inside mode g root pool c₀ count c →
      Writing (GivenAt mode g root ms c₀) is c (Inside mode g root pool c₀ count'))
    (hacc : ∃ L, ∀ c, Within mode g root pool ms V count c → accessLists is c = L) :
    Oblivious (Within mode g root pool ms V count) is (Within mode g root pool ms V count') :=
  Within.oblivious_owns (fun c₀ c hc h => (hw c₀ c hc h).widen owns_of_given) hacc

/-- A block without loads and stores. -/
theorem Within.oblivious_plain (hplain : ∀ i ∈ is, i.isPlain = true)
    (hw : ∀ c₀ c, Enters mode g root pool c₀ → Inside mode g root pool c₀ count c →
      Writing (GivenAt mode g root ms c₀) is c (Inside mode g root pool c₀ count')) :
    Oblivious (Within mode g root pool ms V count) is (Within mode g root pool ms V count') :=
  Within.oblivious hw ⟨_, fun c _ => accessLists_plain hplain c⟩

/-- The next value of the counter. -/
theorem Within.setCounter (h : Within mode g root pool ms V count c) (count' : Word) :
    Within mode g root pool ms V count' (c.set (counterReg mode) count') := by
  obtain ⟨c₀, henter, hsees, hin, hkept⟩ := h
  exact ⟨c₀, henter, hsees, hin.setCounter count', hkept⟩

theorem Within.with_flags (h : Within mode g root pool ms V count c) (f : A64.Flags) :
    Within mode g root pool ms V count { c with flags := f } := by
  obtain ⟨c₀, henter, hsees, hin, hkept⟩ := h
  exact ⟨c₀, henter, hsees, hin.with_flags f, hkept⟩

/-- **The way in is oblivious**, if it only saves registers. -/
theorem oblivious_entry (hframes : ∀ i ∈ is, i.framesOnly = true)
    (hw : ∀ c, Enters mode g root pool c →
      Writing (Owns mode g root ms c) is c (Inside mode g root pool c 0)) :
    Oblivious (fun c => Enters mode g root pool c ∧ Sees g root V c) is
      (Within mode g root pool ms V 0) := by
  have hrun : ∀ c, Enters mode g root pool c ∧ Sees g root V c →
      ∃ d, A64.execs is c = some d ∧ Within mode g root pool ms V 0 d := by
    rintro c ⟨henter, hsees⟩
    obtain ⟨d, hd, -, hin, hkept⟩ := (hw c henter).kept
    exact ⟨d, hd, c, henter, hsees, hin, hkept⟩
  refine .of_eq hrun fun c c' hc hc' => ?_
  obtain ⟨d, hd, -⟩ := hrun c hc
  obtain ⟨d', hd', -⟩ := hrun c' hc'
  exact A64.accessLists_framesOnly hframes (hc.2.stack.trans hc'.2.stack.symm) hd hd'

/-- **The way out is oblivious**, if it only restores registers. -/
theorem oblivious_exit {R : Cpu → Cpu → Prop} (hframes : ∀ i ∈ is, i.framesOnly = true)
    (hw : ∀ c₀ c, Enters mode g root pool c₀ → Inside mode g root pool c₀ count c →
      Writing (Owns mode g root ms c₀) is c (R c₀)) :
    Oblivious (Within mode g root pool ms V count) is fun _ => True := by
  have hrun : ∀ c, Within mode g root pool ms V count c →
      ∃ d, A64.execs is c = some d ∧ True := by
    rintro c ⟨c₀, henter, -, hin, -⟩
    obtain ⟨d, hd, -⟩ := hw c₀ c henter hin
    exact ⟨d, hd, trivial⟩
  refine .of_eq hrun fun c c' hc hc' => ?_
  obtain ⟨d, hd, -⟩ := hrun c hc
  obtain ⟨d', hd', -⟩ := hrun c' hc'
  exact A64.accessLists_framesOnly hframes (hc.sp.trans hc'.sp.symm) hd hd'

end Within

/-! ## The bit-sliced kernel -/

section Sliced

variable {g : Graph} {root : NodeRef} {ms : NodeMetas} {konst : NodeRef → Word} {pool : ConstPool}
  {V : View} {c : Cpu} {k : ℕ} {n : NodeRef}

/-- Load the word of the current bit. -/
theorem accessLists_loadBit {p : Word} {out : Reg} (hx15 : c.get .x15 = BitVec.ofNat 64 k)
    (hx4 : c.get .x4 = p) : accessLists (loadBit out) c = [[], [.read (planeWord p k)]] := by
  rw [loadBit, accessLists_cons (d := c.set .x14 (BitVec.ofNat 64 (8 * k))) ?_,
    accessLists_singleton]
  · simp only [Instr.accesses, A64.Addr.resolve, BitVec.shiftLeft_zero,
      Cpu.get_set_self _ _ (show Reg.x14 ≠ .xzr by decide),
      Cpu.get_set_of_ne _ _ (show Reg.x4 ≠ .x14 by decide), hx4, planeWord]
  · rw [← lsl_three, ← hx15]
    rfl

/-- An access to the word of the current bit in a node's slot. -/
theorem accessLists_slot (h : Within .bitSliced g root pool ms V (BitVec.ofNat 64 k) c)
    (hslot : (ms n).slotId = ((ms n).slotId.toNat : ℤ)) (i : Instr) :
    ∃ d : Cpu, (A64.Addr.index .x20 .x14 0).resolve d =
        (V.scratch + BitVec.ofNat 64 (8 * slotCell ms n k), d) ∧
      accessLists [.bin .lsl .x14 .x15 (.imm 3),
        .bin .add .x14 .x14 (.imm (BitVec.ofInt 64 ((ms n).slotId * 512))), i] c =
        [[], [], i.accesses d] := by
  have hx15 : c.get .x15 = BitVec.ofNat 64 k := h.counter
  have hx20 : c.get .x20 = V.scratch := h.scratch
  refine ⟨(c.set .x14 (A64.BinOp.eval .lsl (c.get .x15) 3)).set .x14
    (A64.BinOp.eval .add ((c.set .x14 (A64.BinOp.eval .lsl (c.get .x15) 3)).get .x14)
      (BitVec.ofInt 64 ((ms n).slotId * 512))), ?_, ?_⟩
  · rw [hx15, lsl_three, Cpu.get_set_self _ _ (by decide), slot_offset hslot, A64.Addr.resolve,
      BitVec.shiftLeft_zero, Cpu.get_set_self _ _ (by decide), Cpu.get_set_of_ne _ _ (by decide),
      Cpu.get_set_of_ne _ _ (by decide), hx20]
  · rw [accessLists_cons rfl, accessLists_cons rfl, accessLists_singleton]
    rfl

/-- **An operand's code shows nothing of the data.** -/
theorem accessLists_getOperandAtBit (halloc : Allocated g root ms konst pool)
    (harith : (g.arithmeticNodes root).length ≤ 8) {operand : Option NodeRef}
    (hlisted : ∀ m, operand = some m → m ∈ g.listing root) (out : Reg) :
    ∃ L, ∀ c, Within .bitSliced g root pool ms V (BitVec.ofNat 64 k) c →
      accessLists (getOperandAtBit g ms konst operand out) c = L := by
  cases operand with
  | none => exact ⟨[], fun c _ => rfl⟩
  | some n =>
    have hn := hlisted n rfl
    unfold getOperandAtBit
    simp only
    split
    · rename_i hkind
      have hidx := List.idxOf_lt_length_of_mem (g.name_mem_fieldNames hn hkind)
      refine ⟨[.read (V.planesArray + BitVec.ofNat 64
        (8 * (g.fieldNames root).idxOf (g.node n).fieldName))] :: [[], [.read (planeWord
        (V.field ((g.fieldNames root).idxOf (g.node n).fieldName)) k)]], fun c h => ?_⟩
      have hx15 : c.get .x15 = BitVec.ofNat 64 k := h.counter
      have hx19 : c.get .x19 = V.planesArray := h.planes
      have hres : (A64.Addr.offset .x19 (BitVec.ofInt 64 ((ms n).fieldIdx * 8))).resolve c =
          (V.planesArray + BitVec.ofNat 64
            (8 * (g.fieldNames root).idxOf (g.node n).fieldName), c) := by
        rw [A64.Addr.resolve, hx19, halloc.fieldIdx n hn hkind, field_offset]
      rw [accessLists_ldr (v := V.field _) (by rw [hres]; exact h.field hidx), hres,
        accessLists_loadBit (k := k) ((Cpu.get_set_of_ne _ _ (by decide)).trans hx15)
          (Cpu.get_set_self _ _ (by decide))]
    · refine ⟨(emitMovImm64 .x4 (konst n)).map (fun _ => []) ++
        [[], [.read (planeWord (konst n) k)]], fun c h => ?_⟩
      have hx15 : c.get .x15 = BitVec.ofNat 64 k := h.counter
      obtain ⟨d, hd, hf, hx4⟩ := execs_emitMovImm64 (show Reg.x4 ≠ .xzr by decide) (konst n) c
      rw [accessLists_append hd, accessLists_plain (by simp [emitMovImm64, Instr.isPlain]),
        accessLists_loadBit (k := k) ((hf.get _ (by decide)).trans hx15) hx4]
    · rename_i hl hconst
      split
      · rename_i hcond
        have hmem := halloc.mem_arithmeticNodes hn hl hconst hcond.1
        refine ⟨[[], [], [.read (V.scratch + BitVec.ofNat 64 (8 * slotCell ms n k))]],
          fun c h => ?_⟩
        obtain ⟨d, hres, hacc⟩ := accessLists_slot h (halloc.slot_lt harith hmem).1
          (.ldr out (.index .x20 .x14 0))
        rw [loadSlot, hacc, Instr.accesses, hres]
      · exact ⟨[], fun c _ => rfl⟩

variable (halloc : Allocated g root ms konst pool) (harith : (g.arithmeticNodes root).length ≤ 8)
include halloc harith

/-- The loads of the operands of a node are oblivious. -/
theorem oblivious_operands (hk : k < 64) (hn : n ∈ g.listing root) :
    Oblivious (Within .bitSliced g root pool ms V (BitVec.ofNat 64 k))
      (getOperandAtBit g ms konst (g.node n).left .x2 ++
        getOperandAtBit g ms konst (g.node n).right .x3)
      (Within .bitSliced g root pool ms V (BitVec.ofNat 64 k)) := by
  have hchild : ∀ m ∈ (g.node n).children, m ∈ g.listing root :=
    fun m hm => (g.postOrder_listing root).closed hn hm
  have hleft : ∀ m, (g.node n).left = some m → m ∈ g.listing root := fun m hm =>
    hchild m (Node.mem_children.mpr (Or.inl hm))
  have hright : ∀ m, (g.node n).right = some m → m ∈ g.listing root := fun m hm =>
    hchild m (Node.mem_children.mpr (Or.inr (Or.inl hm)))
  exact (Within.oblivious
    (fun c₀ c hc h => writing_getOperandAtBit hc halloc harith hk h hleft (Or.inl rfl))
    (accessLists_getOperandAtBit halloc harith hleft .x2)).append (Within.oblivious
    (fun c₀ c hc h => writing_getOperandAtBit hc halloc harith hk h hright (Or.inr rfl))
    (accessLists_getOperandAtBit halloc harith hright .x3))

/-- The code of an arithmetic node is oblivious. -/
theorem oblivious_arithmeticBlock (hk : k < 64) (hn : n ∈ g.arithmeticNodes root) :
    Oblivious (Within .bitSliced g root pool ms V (BitVec.ofNat 64 k))
      (arithmeticBlock g ms konst n)
      (Within .bitSliced g root pool ms V (BitVec.ofNat 64 k)) := by
  have hplain : ∀ carry, ∀ i ∈ if g.kind n = .add then emitAdd carry else emitSub carry,
      i.isPlain = true := by
    intro carry
    split <;> simp [emitAdd, emitSub, Instr.isPlain]
  unfold arithmeticBlock
  split
  · refine ((oblivious_operands halloc harith hk ((g.mem_arithmeticNodes root).mp hn).1).append
      (Within.oblivious_plain (hplain _) fun c₀ c hc h => writing_adder hc h (carryRegs_mem _))).append
      (Within.oblivious (fun c₀ c hc h => writing_storeResult hc halloc harith hk h hn)
        ⟨[[], [], [.write (V.scratch + BitVec.ofNat 64 (8 * slotCell ms n k))]], fun c h => ?_⟩)
    obtain ⟨d, hres, hacc⟩ := accessLists_slot h (halloc.slot_lt harith hn).1
      (.str .x5 (.index .x20 .x14 0))
    rw [storeResult, hacc, Instr.accesses, hres]
  · exact .nil fun _ hc => hc

/-- So is the code of a comparison. -/
theorem oblivious_comparisonBlockAt (hk : k < 64) (hn : n ∈ g.listing root) (i : ℕ) :
    Oblivious (Within .bitSliced g root pool ms V (BitVec.ofNat 64 k))
      (comparisonBlockAt g ms konst n i)
      (Within .bitSliced g root pool ms V (BitVec.ofNat 64 k)) := by
  refine Within.oblivious
    (fun c₀ c hc h => writing_comparisonBlockAt hc halloc harith hk h hn i) ?_
  obtain ⟨L, hL⟩ := oblivious_operands (V := V) halloc harith hk hn
  have hgt : ∀ a b : Reg, ∀ j ∈ emitGt64 a b (cmpGtRegs i) (cmpEqRegs i), j.isPlain = true := by
    simp [emitGt64, Instr.isPlain]
  have hblock : ∀ a b : Reg, ∀ c, Within .bitSliced g root pool ms V (BitVec.ofNat 64 k) c →
      accessLists (getOperandAtBit g ms konst (g.node n).left .x2 ++
        getOperandAtBit g ms konst (g.node n).right .x3 ++
        emitGt64 a b (cmpGtRegs i) (cmpEqRegs i)) c =
        L ++ [[], [], [], [], []] := by
    intro a b c h
    obtain ⟨d, hd, hacc, -⟩ := hL c h
    rw [accessLists_append hd, hacc, accessLists_plain (hgt a b)]
    rfl
  unfold comparisonBlockAt
  split
  · exact ⟨_, hblock .x3 .x2⟩
  · exact ⟨_, hblock .x2 .x3⟩
  · exact ⟨[], fun c _ => rfl⟩

/-- The body of the first loop. -/
theorem oblivious_phase1Body (hk : k < 64) :
    Oblivious (Within .bitSliced g root pool ms V (BitVec.ofNat 64 k))
      (phase1Body g ms konst (g.arithmeticNodes root))
      (Within .bitSliced g root pool ms V (BitVec.ofNat 64 (k + 1))) := by
  refine (Oblivious.flatMap fun n hn => oblivious_arithmeticBlock halloc harith hk hn).append
    (.plain (by simp [Instr.isPlain]) fun c h => ⟨_, rfl, ?_⟩)
  have hx15 : c.get .x15 = BitVec.ofNat 64 k := h.counter
  rw [hx15, BitVec.ofNat_add]
  exact h.setCounter _

/-- The body of the second loop. -/
theorem oblivious_phase2Body (hk : k < 64) :
    Oblivious (Within .bitSliced g root pool ms V (BitVec.ofNat 64 k))
      (phase2Body g ms konst (collectComparisons g root))
      (Within .bitSliced g root pool ms V (BitVec.ofNat 64 k - 1)) := by
  have hlisted : ∀ p ∈ ((collectComparisons g root).take 3).zipIdx, p.1 ∈ g.listing root := by
    intro p hp
    have hmem := List.mem_of_mem_take (List.fst_mem_of_mem_zipIdx hp)
    exact (g.mem_listing root).mpr (mem_collectComparisons hmem).1
  refine (Oblivious.flatMap fun p hp =>
    oblivious_comparisonBlockAt halloc harith hk (hlisted p hp) p.2).append
    (.plain (by simp [Instr.isPlain]) fun c h => ⟨_, rfl, ?_⟩)
  have hx15 : c.get .x15 = BitVec.ofNat 64 k := h.counter
  rw [hx15]
  exact h.setCounter _

variable {code : List Item} {pos : ℕ}

/-- **The first loop is oblivious**: it counts its own planes. -/
theorem leadsObliviously_phase1 (hnd : (A64.labels code).Nodup)
    (hat : A64.At code pos (A64.loopItems 0 1 [.cmp .x15 (.imm 64)] .hs
      (phase1Body g ms konst (g.arithmeticNodes root)))) :
    LeadsObliviously code pos (pos + (A64.loopItems 0 1 [.cmp .x15 (.imm 64)] .hs
        (phase1Body g ms konst (g.arithmeticNodes root))).length)
      (Within .bitSliced g root pool ms V 0)
      (Within .bitSliced g root pool ms V (BitVec.ofNat 64 64)) := by
  refine A64.leadsObliviously_loop
    (I := fun k => Within .bitSliced g root pool ms V (BitVec.ofNat 64 k))
    (J := fun k => Within .bitSliced g root pool ms V (BitVec.ofNat 64 k)) 64 hnd hat ?_
    (fun k hk => oblivious_phase1Body halloc harith hk) ?_
  · refine fun k hk => .plain (by simp [Instr.isPlain]) fun c h => ⟨_, rfl, ?_, h.with_flags _⟩
    have hx15 : c.get .x15 = BitVec.ofNat 64 k := h.counter
    show A64.Cond.hs.holds (A64.Flags.ofSub (c.get .x15) (BitVec.ofNat 64 64)) = false
    rw [hx15, hs_ofNat (by omega) (by omega), decide_eq_false (by omega)]
  · refine .plain (by simp [Instr.isPlain]) fun c h => ⟨_, rfl, ?_, h.with_flags _⟩
    have hx15 : c.get .x15 = BitVec.ofNat 64 64 := h.counter
    show A64.Cond.hs.holds (A64.Flags.ofSub (c.get .x15) (BitVec.ofNat 64 64)) = true
    rw [hx15, hs_ofNat (by omega) (by omega), decide_eq_true (by omega)]

/-- **The second loop is oblivious**, and counts its planes backwards. -/
theorem leadsObliviously_phase2 (hnd : (A64.labels code).Nodup)
    (hat : A64.At code pos (A64.loopItems 2 3 [.cmp .x15 (.imm 0)] .lt
      (phase2Body g ms konst (collectComparisons g root)))) :
    LeadsObliviously code pos (pos + (A64.loopItems 2 3 [.cmp .x15 (.imm 0)] .lt
        (phase2Body g ms konst (collectComparisons g root))).length)
      (Within .bitSliced g root pool ms V (BitVec.ofNat 64 64 - 1))
      (Within .bitSliced g root pool ms V (BitVec.ofNat 64 0 - 1)) := by
  refine A64.leadsObliviously_loop
    (I := fun j => Within .bitSliced g root pool ms V (BitVec.ofNat 64 (64 - j) - 1))
    (J := fun j => Within .bitSliced g root pool ms V (BitVec.ofNat 64 (64 - (j + 1)))) 64 hnd hat
    ?_ (fun j hj => oblivious_phase2Body halloc harith (by omega)) ?_
  · refine fun j hj => .plain (by simp [Instr.isPlain]) fun c h => ?_
    rw [show 64 - j = 64 - (j + 1) + 1 by omega, ofNat_succ_sub_one] at h
    refine ⟨_, rfl, ?_, h.with_flags _⟩
    have hx15 : c.get .x15 = BitVec.ofNat 64 (64 - (j + 1)) := h.counter
    show A64.Cond.lt.holds (A64.Flags.ofSub (c.get .x15) 0) = false
    rw [hx15, lt_zero, BitVec.msb_eq_false_iff_two_mul_lt, BitVec.toNat_ofNat]
    omega
  · refine .plain (by simp [Instr.isPlain]) fun c h => ⟨_, rfl, ?_, h.with_flags _⟩
    have hx15 : c.get .x15 = BitVec.ofNat 64 0 - 1 := h.counter
    show A64.Cond.lt.holds (A64.Flags.ofSub (c.get .x15) 0) = true
    rw [hx15, lt_zero]
    decide

omit halloc harith in
/-- The code before the first loop saves registers. -/
theorem framesOnly_phase1Entry (nodes : List NodeRef) :
    ∀ i ∈ phase1Entry g ms nodes, i.framesOnly = true := by
  have hcarry : ∀ j, carryRegs j ≠ .sp := by
    intro j heq
    have hmem := carryRegs_mem j
    rw [heq] at hmem
    exact absurd hmem (by decide)
  have hinit : ∀ n, ∀ i ∈ carryInit g ms n, i.framesOnly = true := by
    intro n i hi
    unfold carryInit at hi
    split at hi
    · split at hi
      · rw [List.mem_singleton.mp hi]
        simp [Instr.framesOnly, Instr.isPlain, Instr.targets, (hcarry _).symm]
      · rw [List.mem_singleton.mp hi]
        simp [Instr.framesOnly, Instr.isPlain, Instr.targets, (hcarry _).symm]
      · exact absurd hi List.not_mem_nil
    · exact absurd hi List.not_mem_nil
  have hpushes : ∀ i ∈ expressionPrologue, i.framesOnly = true := by decide
  intro i hi
  rw [phase1Entry, List.mem_append, List.mem_append] at hi
  rcases hi with (hi | hi) | hi
  · exact hpushes i hi
  · obtain ⟨n, -, hi⟩ := List.mem_flatMap.mp hi
    exact hinit n i hi
  · rw [List.mem_singleton.mp hi]
    decide

omit halloc harith in
/-- The code between the loops has no loads and stores. -/
theorem plain_phase2Entry (numComparisons : ℕ) :
    ∀ i ∈ phase2Entry numComparisons, i.isPlain = true := by
  intro i hi
  rcases List.mem_append.mp hi with hi | hi
  · obtain ⟨j, -, hi⟩ := List.mem_flatMap.mp hi
    simp only [comparisonInit, List.mem_cons, List.not_mem_nil, or_false] at hi
    rcases hi with rfl | rfl <;> rfl
  · rw [List.mem_singleton.mp hi]
    rfl

omit halloc harith in
/-- The code after the second loop restores registers. -/
theorem framesOnly_tail (numComparisons : ℕ) :
    ∀ i ∈ foldMasks numComparisons ++ expressionEpilogue, i.framesOnly = true := by
  have hpops : ∀ i ∈ expressionEpilogue, i.framesOnly = true := by decide
  intro i hi
  rcases List.mem_append.mp hi with hi | hi
  · unfold foldMasks at hi
    split at hi
    · rcases List.mem_cons.mp hi with rfl | hi
      · simp [Instr.framesOnly, Instr.isPlain, Instr.targets]
      · obtain ⟨j, -, rfl⟩ := List.mem_map.mp hi
        simp [Instr.framesOnly, Instr.isPlain, Instr.targets]
    · rw [List.mem_singleton.mp hi]
      rfl
  · exact hpops i hi

/-- **The bit-sliced kernel is oblivious.** -/
theorem leadsObliviously_expressionCode :
    ∃ pos, A64.At (g.expressionCode root ms konst) pos [.ret .x30] ∧
      LeadsObliviously (g.expressionCode root ms konst) 0 pos
        (fun c => Enters .bitSliced g root pool c ∧ Sees g root V c) fun _ => True := by
  have hnd : (A64.labels (g.expressionCode root ms konst)).Nodup := by
    rw [labels_expressionCode]
    decide
  have hat := twoLoops_expressionCode g root ms konst
  have hentry : Oblivious (fun c => Enters .bitSliced g root pool c ∧ Sees g root V c)
      (phase1Entry g ms (g.arithmeticNodes root)) (Within .bitSliced g root pool ms V 0) :=
    oblivious_entry (framesOnly_phase1Entry _) fun c hc => writing_phase1Entry hc _
  have hbetween : Oblivious (Within .bitSliced g root pool ms V (BitVec.ofNat 64 64))
      (phase2Entry (collectComparisons g root).length)
      (Within .bitSliced g root pool ms V (BitVec.ofNat 64 64 - 1)) :=
    Within.oblivious_owns (fun c₀ c hc h => writing_phase2Entry hc _ h)
      ⟨_, fun c _ => accessLists_plain (plain_phase2Entry _) c⟩
  have htail : Oblivious (Within .bitSliced g root pool ms V (BitVec.ofNat 64 0 - 1))
      (foldMasks (collectComparisons g root).length ++ expressionEpilogue) fun _ => True :=
    oblivious_exit (framesOnly_tail _) fun c₀ c hc h => writing_tail hc _ h
  have h₁ := LeadsObliviously.block hat.atEntry hentry
  have h₂ := leadsObliviously_phase1 (V := V) halloc harith hnd hat.atFirst
  have h₃ := LeadsObliviously.block hat.atBetween hbetween
  have h₄ := leadsObliviously_phase2 (V := V) halloc harith hnd hat.atSecond
  have h₅ := LeadsObliviously.block hat.atTail htail
  exact ⟨_, hat.atRet, (((h₁.trans h₂).trans h₃).trans h₄).trans h₅⟩

end Sliced

/-! ## The scalar kernel -/

section Scalar

variable {g : Graph} {root : NodeRef} {ms : NodeMetas} {pool : ConstPool} {V : View} {k i : ℕ}
  {n : NodeRef}

/-- **An operand's code shows nothing of the data.** -/
theorem accessLists_getOperand
    (hidx : ∀ n ∈ g.loadNodes root,
      (ms n).fieldIdx = ((g.fieldNames root).idxOf (g.node n).fieldName : ℕ))
    {operand : Option NodeRef} (hlisted : ∀ m, operand = some m → m ∈ g.listing root) (out : Reg) :
    ∃ L, ∀ c, Within .scalar g root pool ms V (BitVec.ofNat 64 k) c →
      accessLists (getOperand g ms (g.listing root) i operand out) c = L := by
  cases operand with
  | none => exact ⟨[], fun c _ => rfl⟩
  | some n =>
    have hn := hlisted n rfl
    unfold getOperand
    simp only
    split
    · rename_i hkind
      have hlt := List.idxOf_lt_length_of_mem (g.name_mem_fieldNames hn hkind)
      refine ⟨[[.read (V.planesArray + BitVec.ofNat 64
        (8 * (g.fieldNames root).idxOf (g.node n).fieldName))], [.read (planeWord
        (V.field ((g.fieldNames root).idxOf (g.node n).fieldName)) k)]], fun c h => ?_⟩
      have hx0 : c.get .x0 = V.planesArray := h.planes
      have hx20 : c.get .x20 = BitVec.ofNat 64 k := h.counter
      have hres : (A64.Addr.offset .x0 (BitVec.ofInt 64 ((ms n).fieldIdx * 8))).resolve c =
          (V.planesArray + BitVec.ofNat 64
            (8 * (g.fieldNames root).idxOf (g.node n).fieldName), c) := by
        rw [A64.Addr.resolve, hx0, hidx n ((g.mem_loadNodes root).mpr ⟨hn, hkind⟩), field_offset]
      rw [accessLists_ldr (v := V.field _) (by rw [hres]; exact h.field hlt), hres,
        accessLists_singleton, Instr.accesses, A64.Addr.resolve,
        Cpu.get_set_self _ _ (show Reg.x4 ≠ .xzr by decide),
        Cpu.get_set_of_ne _ _ (show Reg.x20 ≠ .x4 by decide), hx20]
      exact congrArg (fun x => [_, [A64.Access.read (V.field _ + x)]]) (lsl_three k)
    · exact ⟨_, fun c _ => accessLists_plain (by simp [emitMovImm64, Instr.isPlain]) c⟩
    · refine ⟨[[.read (V.scratch + BitVec.ofNat 64 (8 * opIdx (g.listing root) i n))]],
        fun c h => ?_⟩
      have hx1 : c.get .x1 = V.scratch := h.scratch
      rw [accessLists_singleton, Instr.accesses, A64.Addr.resolve, hx1]

variable (hidx : ∀ n ∈ g.loadNodes root,
    (ms n).fieldIdx = ((g.fieldNames root).idxOf (g.node n).fieldName : ℕ))
  (hnodes : (g.listing root).length ≤ 512)
include hidx hnodes

/-- An operand, in the register its code loads it to. -/
theorem oblivious_getOperand (hk : k < 64) {operand : Option NodeRef}
    (hlisted : ∀ m, operand = some m → m ∈ g.listing root) {out : Reg}
    (hout : out ∈ [Reg.x2, .x3, .x5]) :
    Oblivious (Within .scalar g root pool ms V (BitVec.ofNat 64 k))
      (getOperand g ms (g.listing root) i operand out)
      (Within .scalar g root pool ms V (BitVec.ofNat 64 k)) :=
  Within.oblivious (fun _ _ hc h => writing_getOperand hc hidx hnodes hk h hlisted hout)
    (accessLists_getOperand hidx hlisted out)

/-- The operation of a node is oblivious. -/
theorem oblivious_scalarOp (hk : k < 64) (hn : n ∈ g.listing root) :
    Oblivious (Within .scalar g root pool ms V (BitVec.ofNat 64 k))
      (scalarOp g ms (g.listing root) i n)
      (Within .scalar g root pool ms V (BitVec.ofNat 64 k)) := by
  have hself : ∀ m, some n = some m → m ∈ g.listing root := by
    rintro m ⟨⟩
    exact hn
  refine Within.oblivious (fun _ _ hc h => writing_scalarOp hc hidx hnodes hk h hn) ?_
  unfold scalarOp
  split
  · exact accessLists_getOperand hidx hself .x5
  · exact accessLists_getOperand hidx hself .x5
  all_goals exact ⟨_, fun c _ => accessLists_plain (by simp [Instr.isPlain]) c⟩

/-- So is the code of a node, with its loads and its store. -/
theorem oblivious_scalarBlock (hk : k < 64) (hn : n ∈ g.listing root)
    (hi : i < (g.listing root).length) :
    Oblivious (Within .scalar g root pool ms V (BitVec.ofNat 64 k))
      (scalarBlock g ms (g.listing root) n i)
      (Within .scalar g root pool ms V (BitVec.ofNat 64 k)) := by
  have hchild : ∀ m ∈ (g.node n).children, m ∈ g.listing root :=
    fun m hm => (g.postOrder_listing root).closed hn hm
  obtain ⟨L, hL⟩ := ((oblivious_getOperand (V := V) (i := i) hidx hnodes hk
    (fun m hm => hchild m (Node.mem_children.mpr (Or.inl hm))) (show Reg.x2 ∈ _ by simp)).append
    (oblivious_getOperand hidx hnodes hk
      (fun m hm => hchild m (Node.mem_children.mpr (Or.inr (Or.inl hm))))
      (show Reg.x3 ∈ _ by simp))).append (oblivious_scalarOp hidx hnodes hk hn)
  refine Within.oblivious (fun _ _ hc h => writing_scalarBlock hc hidx hnodes hk h hn hi)
    ⟨L ++ [[.write (V.scratch + BitVec.ofNat 64 (8 * i))]], fun c h => ?_⟩
  obtain ⟨d, hd, hacc, hwithin⟩ := hL c h
  have hx1 : d.get .x1 = V.scratch := hwithin.scratch
  rw [scalarBlock, accessLists_append hd, hacc, accessLists_singleton, Instr.accesses,
    A64.Addr.resolve, hx1]

/-- And so is the body of the row loop. -/
theorem oblivious_scalarBody (hk : k < 64) :
    Oblivious (Within .scalar g root pool ms V (BitVec.ofNat 64 k))
      (scalarBody g ms (g.listing root))
      (Within .scalar g root pool ms V (BitVec.ofNat 64 (k + 1))) := by
  have hlisted : ∀ p ∈ (g.listing root).zipIdx,
      p.1 ∈ g.listing root ∧ p.2 < (g.listing root).length := fun p hp => by
    have hlt := List.snd_lt_of_mem_zipIdx hp
    exact ⟨List.fst_mem_of_mem_zipIdx hp, by omega⟩
  have hblocks : Oblivious (Within .scalar g root pool ms V (BitVec.ofNat 64 k))
      ((g.listing root).zipIdx.flatMap fun p => scalarBlock g ms (g.listing root) p.1 p.2)
      (Within .scalar g root pool ms V (BitVec.ofNat 64 k)) :=
    Oblivious.flatMap fun p hp =>
      oblivious_scalarBlock hidx hnodes hk (hlisted p hp).1 (hlisted p hp).2
  obtain ⟨L, hL⟩ := hblocks
  refine Within.oblivious (fun _ _ hc h => writing_scalarBody hc hidx hnodes hk h)
    ⟨L ++ [[], [], []], fun c h => ?_⟩
  obtain ⟨d, hd, hacc, -⟩ := hL c h
  rw [scalarBody, accessLists_append hd, hacc,
    accessLists_plain (by simp [scalarAccumulate, Instr.isPlain])]
  rfl

/-- **The row loop of a scalar kernel is oblivious.** -/
theorem leadsObliviously_rows {code : List Item} {pos : ℕ} (hnd : (A64.labels code).Nodup)
    (hat : A64.At code pos (A64.loopItems 0 1 [.cmp .x20 (.imm 64)] .hs
      (scalarBody g ms (g.listing root)))) :
    LeadsObliviously code pos (pos + (A64.loopItems 0 1 [.cmp .x20 (.imm 64)] .hs
        (scalarBody g ms (g.listing root))).length)
      (Within .scalar g root pool ms V 0)
      (Within .scalar g root pool ms V (BitVec.ofNat 64 64)) := by
  refine A64.leadsObliviously_loop
    (I := fun k => Within .scalar g root pool ms V (BitVec.ofNat 64 k))
    (J := fun k => Within .scalar g root pool ms V (BitVec.ofNat 64 k)) 64 hnd hat ?_
    (fun k hk => oblivious_scalarBody hidx hnodes hk) ?_
  · refine fun k hk => .plain (by simp [Instr.isPlain]) fun c h => ⟨_, rfl, ?_, h.with_flags _⟩
    have hx20 : c.get .x20 = BitVec.ofNat 64 k := h.counter
    show A64.Cond.hs.holds (A64.Flags.ofSub (c.get .x20) (BitVec.ofNat 64 64)) = false
    rw [hx20, hs_ofNat (by omega) (by omega), decide_eq_false (by omega)]
  · refine .plain (by simp [Instr.isPlain]) fun c h => ⟨_, rfl, ?_, h.with_flags _⟩
    have hx20 : c.get .x20 = BitVec.ofNat 64 64 := h.counter
    show A64.Cond.hs.holds (A64.Flags.ofSub (c.get .x20) (BitVec.ofNat 64 64)) = true
    rw [hx20, hs_ofNat (by omega) (by omega), decide_eq_true (by omega)]

/-- **The scalar kernel is oblivious.** -/
theorem leadsObliviously_scalarCode :
    ∃ pos, A64.At (g.scalarCode root ms) pos [.ret .x30] ∧
      LeadsObliviously (g.scalarCode root ms) 0 pos
        (fun c => Enters .scalar g root pool c ∧ Sees g root V c) fun _ => True := by
  have hnd : (A64.labels (g.scalarCode root ms)).Nodup := by
    rw [labels_scalarCode]
    decide
  have hat := oneLoop_scalarCode g root ms
  have hentry : Oblivious (fun c => Enters .scalar g root pool c ∧ Sees g root V c)
      scalarPrologue (Within .scalar g root pool ms V 0) :=
    oblivious_entry (by decide) fun c hc => writing_scalarPrologue hc
  have htail : Oblivious (Within .scalar g root pool ms V (BitVec.ofNat 64 64)) scalarEpilogue
      fun _ => True :=
    oblivious_exit (by decide) fun c₀ c _ h => writing_scalarEpilogue h
  have h₁ := LeadsObliviously.block hat.atEntry hentry
  have h₃ := LeadsObliviously.block hat.atTail htail
  exact ⟨_, hat.atRet, (h₁.trans (leadsObliviously_rows hidx hnodes hnd hat.atLoop)).trans h₃⟩

end Scalar

/-! ## Compiled kernels -/

/-- Two machines that a kernel is entered with alike: the arrays and the planes of the fields
are at the same addresses. -/
structure Alike (g : Graph) (root : NodeRef) (c c' : Cpu) : Prop where
  planesArray : c.get .x0 = c'.get .x0
  scratch : c.get .x1 = c'.get .x1
  stack : c.get .sp = c'.get .sp
  field : ∀ i < (g.fieldNames root).length,
    c.mem.load (planesSlot c i) = c'.mem.load (planesSlot c' i)

/-- The view from a machine. -/
def viewOf (c : Cpu) : View :=
  ⟨c.get .x0, c.get .x1, c.get .sp, fun i => (c.mem.load (planesSlot c i)).getD 0⟩

section Compiled

variable {mode : ExecutionMode} {g : Graph} {root : NodeRef} {pool : ConstPool} {c c' : Cpu}

theorem Alike.sees (h : Alike g root c c') (hc : Enters mode g root pool c) :
    Sees g root (viewOf c) c ∧ Sees g root (viewOf c) c' := by
  have hfield : ∀ i < (g.fieldNames root).length,
      c.mem.load (planesSlot c i) = some ((viewOf c).field i) := by
    intro i hi
    obtain ⟨-, p, hp, -⟩ := hc.field i hi
    have hview : (viewOf c).field i = (c.mem.load (planesSlot c i)).getD 0 := rfl
    rw [hview, hp, Option.getD_some]
  exact ⟨⟨rfl, rfl, rfl, hfield⟩, ⟨h.planesArray.symm, h.scratch.symm, h.stack.symm,
    fun i hi => (h.field i hi).symm.trans (hfield i hi)⟩⟩

/-- **Kernels are oblivious.**  For every expression that was built in a run of builder calls,
in both modes, and any two machines a kernel may be entered with alike: both runs return, and
they fetch the same instructions and touch the same addresses, in the same order.  So neither
the number of steps nor an access depends on the values of the fields, on what is left in the
scratchpad, or on the other registers. -/
theorem kernel_oblivious {calls : List BuilderCall} (hrun : Session.Run calls)
    (hroot : some root ∈ (Session.run calls).results)
    (hg : g = (Session.run calls).pool.graph (Session.wellFormed_run hrun).ordered)
    {heap : ℕ → Word} {st st' : CompileState} {code : List Item}
    (hcompile : compile mode heap g (some root) st = (some code, st'))
    (hc : Enters mode g root st'.pool c) (hc' : Enters mode g root st'.pool c')
    (halike : Alike g root c c') :
    (A64.run code (Caller.fuel code) ⟨0, c⟩).isSome ∧
    (A64.run code (Caller.fuel code) ⟨0, c'⟩).isSome ∧
    A64.events code (Caller.fuel code) ⟨0, c⟩ = A64.events code (Caller.fuel code) ⟨0, c'⟩ := by
  have hwf := Session.wellFormed_run hrun
  have hnodes : (g.listing root).length ≤ 512 := by
    rw [hg]
    exact (NodePool.length_listing_le hwf.ordered
      ((hwf.taken root hroot).trans_le (Session.nextIdx_le calls))).trans (by decide)
  have hlaw : (∀ d, Enters mode g root st'.pool d → KeepsFrame mode g root st'.metas code d) ∧
      ∃ pos, A64.At code pos [.ret .x30] ∧ LeadsObliviously code 0 pos
        (fun d => Enters mode g root st'.pool d ∧ Sees g root (viewOf c) d) fun _ => True := by
    cases mode with
    | bitSliced =>
      obtain ⟨konst, rfl, halloc⟩ := allocated_of_compile hcompile
      have harith := (limits_of_compileExpression heap g root st hcompile).2
      exact ⟨fun d hd => keepsFrame_expressionCode hd halloc harith,
        leadsObliviously_expressionCode halloc harith⟩
    | scalar =>
      have hidx := fun n hn => fieldIdx_of_compile (n := n) hcompile hn
      rw [compile_scalar] at hcompile
      obtain ⟨hcode, rfl⟩ := Prod.mk.inj hcompile
      rw [← Option.some.inj hcode]
      exact ⟨fun d hd => keepsFrame_scalarCode hd hidx hnodes,
        leadsObliviously_scalarCode hidx hnodes⟩
  obtain ⟨hkeeps, pos, hret, hleads⟩ := hlaw
  have hreturns : ∀ d, Enters mode g root st'.pool d →
      (A64.run code (Caller.fuel code) ⟨0, d⟩).isSome := by
    intro d hd
    obtain ⟨e, he, -⟩ := (hkeeps d hd).returns
    rw [he]
    rfl
  obtain ⟨hsees, hsees'⟩ := halike.sees hc
  exact ⟨hreturns c hc, hreturns c' hc',
    A64.events_eq_of_leads hleads hret ⟨hc, hsees⟩ ⟨hc', hsees'⟩ (hreturns c hc)⟩

end Compiled

/-- Two calls of one caller are alike: only the planes and the scratchpad differ. -/
theorem alike_enter {g : Graph} {root : NodeRef} {caller : Caller} {planes planes' : Planes}
    (scratch scratch' : Scratch) (hfields : (g.fieldNames root).length ≤ 8)
    (hplanes : ∀ i < (g.fieldNames root).length, (planes i).isSome)
    (hplanes' : ∀ i < (g.fieldNames root).length, (planes' i).isSome) :
    Alike g root (caller.enter (caller.layout.cell .planesArray 0) planes scratch)
      (caller.enter (caller.layout.cell .planesArray 0) planes' scratch') where
  planesArray := by rw [Caller.enter_x0, Caller.enter_x0]
  scratch := by rw [Caller.enter_x1, Caller.enter_x1]
  stack := by rw [Caller.enter_sp, Caller.enter_sp]
  field i hi := by
    obtain ⟨p, hp⟩ := Option.isSome_iff_exists.mp (hplanes i hi)
    obtain ⟨p', hp'⟩ := Option.isSome_iff_exists.mp (hplanes' i hi)
    have hi8 := hi.trans_le hfields
    simp only [planesSlot, Caller.enter_x0, A64.Layout.cell_add, Nat.zero_add, Caller.enter_mem]
    rw [caller.load_planesArray _ _ _ hi8 hp, caller.load_planesArray _ _ _ hi8 hp']

/-- The bit-sliced kernel of `GT(Load("a"), Const(5))`, on rows with 7 and on rows with 3. -/
theorem kernel_oblivious_threshold :
    ∃ code st', compile .bitSliced standardHeap (thresholdGraph (.ofString [97]) 5) (some 2)
        ⟨fun _ => {}, []⟩ = (some code, st') ∧
      ∀ c c', c = (Caller.standard [5] (by decide)).enter
          ((Caller.standard [5] (by decide)).layout.cell .planesArray 0)
          (fun _ => some (BitPlane.broadcast (7 : Word))) (fun _ => 0) →
        c' = (Caller.standard [5] (by decide)).enter
          ((Caller.standard [5] (by decide)).layout.cell .planesArray 0)
          (fun _ => some (BitPlane.broadcast (3 : Word))) (fun _ => 9) →
        A64.events code (Caller.fuel code) ⟨0, c⟩ = A64.events code (Caller.fuel code) ⟨0, c'⟩ := by
  obtain ⟨code, st', hcompile⟩ : ∃ code st', compile .bitSliced standardHeap
      (thresholdGraph (.ofString [97]) 5) (some 2) ⟨fun _ => {}, []⟩ = (some code, st') :=
    ⟨_, _, rfl⟩
  have hst : (compile .bitSliced standardHeap (thresholdGraph (.ofString [97]) 5) (some 2)
      ⟨fun _ => {}, []⟩).2 = st' := by rw [hcompile]
  have hpool : st'.pool ⊆ (Caller.standard [5] (by decide)).pool := by
    rw [← hst]
    exact List.Subset.refl [(5, standardHeap 0)]
  have hrun : Session.Run [.load (.ofString [97]), .const 5, .gt (some 0) (some 1)] := by
    simp only [Session.Run, Runs.Along]
    decide
  refine ⟨code, st', hcompile, ?_⟩
  rintro c c' rfl rfl
  exact (kernel_oblivious (g := thresholdGraph (.ofString [97]) 5) hrun (by decide) rfl hcompile
    (enters_enter hpool (by decide) fun _ _ => rfl) (enters_enter hpool (by decide) fun _ _ => rfl)
    (alike_enter _ _ (by decide) (fun _ _ => rfl) fun _ _ => rfl)).2.2

end Jit
end ApexEngine
