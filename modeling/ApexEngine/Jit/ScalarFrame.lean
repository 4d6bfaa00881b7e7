import ApexEngine.Jit.KernelFrame

/-!
# The scalar kernel keeps its frame

A scalar kernel has one loop, over the rows, and its body has one block for each node of the
expression.  A block ends with a store of the node's result at the node's position in the
traversal, so what is written are the first words of the scratchpad, one for each node.
-/

namespace ApexEngine
namespace Jit

open A64 (Word Reg Cpu Instr Item Writing LeadsWriting Kept InFrame Pushed)

/-! ## The blocks of the scalar kernel -/

section Scalar

variable {g : Graph} {root : NodeRef} {ms : NodeMetas} {pool : ConstPool} {c₀ c : Cpu} {k i : ℕ}
  {n : NodeRef}

/-- The registers the code for an operand writes. -/
theorem targets_getOperand (allNodes : List NodeRef) (operand : Option NodeRef) (out : Reg) :
    ∀ j ∈ getOperand g ms allNodes i operand out, ∀ r ∈ j.targets, r ∈ [Reg.x4, out] := by
  intro j hj
  unfold getOperand at hj
  split at hj
  · exact absurd hj List.not_mem_nil
  · split at hj
    · simp only [List.mem_cons, List.not_mem_nil, or_false] at hj
      rcases hj with rfl | rfl <;> simp [Instr.targets, A64.Addr.targets]
    · simp only [emitMovImm64, List.mem_cons, List.not_mem_nil, or_false] at hj
      rcases hj with rfl | rfl | rfl | rfl <;> simp [Instr.targets]
    · rw [List.mem_singleton.mp hj]
      simp [Instr.targets, A64.Addr.targets]

/-- Load the value of the current row from a column that can be read. -/
theorem writing_loadRow {W : Word → Prop} {p : Word} {out : Reg}
    (hx20 : c.get .x20 = BitVec.ofNat 64 k) (hx4 : c.get .x4 = p)
    (hload : (c.mem.load (planeWord p k)).isSome) :
    Writing W [.ldr out (.index .x4 .x20 3)] c fun _ => True := by
  obtain ⟨v, hv⟩ := Option.isSome_iff_exists.mp hload
  refine .ldr (v := v) ?_ (.nil trivial)
  rw [A64.Addr.resolve, hx4, hx20]
  exact (congrArg (fun x => c.mem.load (p + x)) (lsl_three k)).trans hv

/-- What the search for an operand finds is a position in the list. -/
theorem opIdx_lt {allNodes : List NodeRef} (hpos : 0 < allNodes.length) (i : ℕ)
    (operand : NodeRef) : opIdx allNodes i operand < allNodes.length := by
  unfold opIdx
  cases h : (allNodes.take i).findIdx? (· = operand) with
  | none => exact hpos
  | some j =>
    have hj := (List.findIdx?_eq_some_iff_findIdx_eq.mp h).1
    exact hj.trans_le (List.length_take_le' i allNodes)

/-- **An operand's code stays inside.** -/
theorem writing_getOperand (hc : Enters .scalar g root pool c₀)
    (hidx : ∀ n ∈ g.loadNodes root,
      (ms n).fieldIdx = ((g.fieldNames root).idxOf (g.node n).fieldName : ℕ))
    (hnodes : (g.listing root).length ≤ 512) (hk : k < 64)
    (h : Inside .scalar g root pool c₀ (BitVec.ofNat 64 k) c) {operand : Option NodeRef}
    (hlisted : ∀ m, operand = some m → m ∈ g.listing root) {out : Reg}
    (hout : out ∈ [Reg.x2, .x3, .x5]) :
    Writing (GivenAt .scalar g root ms c₀) (getOperand g ms (g.listing root) i operand out) c
      (Inside .scalar g root pool c₀ (BitVec.ofNat 64 k)) := by
  have hspares : Spares .scalar (getOperand g ms (g.listing root) i operand out) := by
    refine spares_of_targets (targets_getOperand _ operand out) ?_
    clear hlisted
    revert out
    decide
  refine h.writing hc hspares ?_
  cases operand with
  | none => exact .nil trivial
  | some n =>
    have hn := hlisted n rfl
    unfold getOperand
    simp only
    split
    · rename_i hkind
      have hx0 : c.get .x0 = c₀.get .x0 := h.planes
      have hx20 : c.get .x20 = BitVec.ofNat 64 k := h.counter
      obtain ⟨p, hp, hplanes⟩ := h.sound.field _
        (List.idxOf_lt_length_of_mem (g.name_mem_fieldNames hn hkind))
      rw [hidx n ((g.mem_loadNodes root).mpr ⟨hn, hkind⟩), field_offset]
      refine .ldr (v := p) ?_ (writing_loadRow (k := k) ?_ (Cpu.get_set_self _ _ (by decide)) ?_)
      · rw [A64.Addr.resolve, hx0]
        exact hp
      · exact (Cpu.get_set_of_ne _ _ (by decide)).trans hx20
      · exact hplanes k hk
    · exact (Writing.plain (by simp [emitMovImm64, Instr.isPlain]) c).mono fun _ _ => trivial
    · have hx1 : c.get .x1 = c₀.get .x1 := h.scratch
      have hlt := opIdx_lt (List.length_pos_of_mem hn) i n
      obtain ⟨v, hv⟩ := Option.isSome_iff_exists.mp (h.sound.scratch _ (hlt.trans_le hnodes))
      refine .ldr (v := v) ?_ (.nil trivial)
      rw [A64.Addr.resolve, hx1]
      exact hv

/-- The operation of a node works in registers. -/
theorem writing_scalarOp (hc : Enters .scalar g root pool c₀)
    (hidx : ∀ n ∈ g.loadNodes root,
      (ms n).fieldIdx = ((g.fieldNames root).idxOf (g.node n).fieldName : ℕ))
    (hnodes : (g.listing root).length ≤ 512) (hk : k < 64)
    (h : Inside .scalar g root pool c₀ (BitVec.ofNat 64 k) c) (hn : n ∈ g.listing root) :
    Writing (GivenAt .scalar g root ms c₀) (scalarOp g ms (g.listing root) i n) c
      (Inside .scalar g root pool c₀ (BitVec.ofNat 64 k)) := by
  have hplain : ∀ is : List Instr, (∀ j ∈ is, j.isPlain = true ∧ ∀ r ∈ j.targets, r ∈ [Reg.x5]) →
      Writing (GivenAt .scalar g root ms c₀) is c
        (Inside .scalar g root pool c₀ (BitVec.ofNat 64 k)) := fun is his =>
    h.plain hc (fun j hj => (his j hj).1)
      (spares_of_targets (fun j hj => (his j hj).2) (by decide))
  unfold scalarOp
  split
  · refine writing_getOperand hc hidx hnodes hk h (fun m hm => ?_) (by simp)
    rw [← Option.some.inj hm]
    exact hn
  · refine writing_getOperand hc hidx hnodes hk h (fun m hm => ?_) (by simp)
    rw [← Option.some.inj hm]
    exact hn
  all_goals exact hplain _ (by simp [Instr.isPlain, Instr.targets])

/-- **The code of a node** writes its cell. -/
theorem writing_scalarBlock (hc : Enters .scalar g root pool c₀)
    (hidx : ∀ n ∈ g.loadNodes root,
      (ms n).fieldIdx = ((g.fieldNames root).idxOf (g.node n).fieldName : ℕ))
    (hnodes : (g.listing root).length ≤ 512) (hk : k < 64)
    (h : Inside .scalar g root pool c₀ (BitVec.ofNat 64 k) c) (hn : n ∈ g.listing root)
    (hi : i < (g.listing root).length) :
    Writing (GivenAt .scalar g root ms c₀) (scalarBlock g ms (g.listing root) n i) c
      (Inside .scalar g root pool c₀ (BitVec.ofNat 64 k)) := by
  have hchild : ∀ m ∈ (g.node n).children, m ∈ g.listing root :=
    fun m hm => (g.postOrder_listing root).closed hn hm
  refine Writing.append (Writing.append (Writing.append
    (writing_getOperand hc hidx hnodes hk h (fun m hm => ?_) (by simp))
    fun d hd => writing_getOperand hc hidx hnodes hk hd (fun m hm => ?_) (by simp))
    fun d hd => writing_scalarOp hc hidx hnodes hk hd hn) fun d hd => ?_
  · exact hchild m (Node.mem_children.mpr (Or.inl hm))
  · exact hchild m (Node.mem_children.mpr (Or.inr (Or.inl hm)))
  · have hx1 : d.get .x1 = c₀.get .x1 := hd.scratch
    have haddr : ((A64.Addr.offset .x1 (BitVec.ofNat 64 (8 * i))).resolve d).1 =
        scratchWord c₀ i := by rw [A64.Addr.resolve, hx1, scratchWord]
    obtain ⟨μ, hμ⟩ := A64.Memory.exists_store (hd.sound.scratch i (hi.trans_le hnodes)) (d.get .x5)
    rw [← haddr] at hμ
    refine hd.writing hc ?_ (.str ?_ hμ (.nil trivial))
    · simp [Spares, Instr.targets, A64.Addr.targets]
    · rw [haddr]
      exact ⟨i, hi.trans_le hnodes, hi, rfl⟩

/-- The body of the loop goes to the next row. -/
theorem writing_scalarBody (hc : Enters .scalar g root pool c₀)
    (hidx : ∀ n ∈ g.loadNodes root,
      (ms n).fieldIdx = ((g.fieldNames root).idxOf (g.node n).fieldName : ℕ))
    (hnodes : (g.listing root).length ≤ 512) (hk : k < 64)
    (h : Inside .scalar g root pool c₀ (BitVec.ofNat 64 k) c) :
    Writing (GivenAt .scalar g root ms c₀) (scalarBody g ms (g.listing root)) c
      (Inside .scalar g root pool c₀ (BitVec.ofNat 64 (k + 1))) := by
  have hlisted : ∀ p ∈ (g.listing root).zipIdx,
      p.1 ∈ g.listing root ∧ p.2 < (g.listing root).length := fun p hp => by
    have hlt := List.snd_lt_of_mem_zipIdx hp
    exact ⟨List.fst_mem_of_mem_zipIdx hp, by omega⟩
  refine (Writing.flatMap (fun p hp d hd => writing_scalarBlock hc hidx hnodes hk hd
    (hlisted p hp).1 (hlisted p hp).2) h).append fun d hd => ?_
  -- the shift and the accumulation, then the counter
  have htargets : ∀ j ∈ [Instr.bin .lsl .x5 .x5 (.reg .x20), .bin .orr .x19 .x19 (.reg .x5)],
      ∀ r ∈ j.targets, r ∈ [Reg.x5, .x19] := by simp [Instr.targets]
  have haccumulate : Writing (GivenAt .scalar g root ms c₀)
      [.bin .lsl .x5 .x5 (.reg .x20), .bin .orr .x19 .x19 (.reg .x5)] d
      (Inside .scalar g root pool c₀ (BitVec.ofNat 64 k)) :=
    hd.plain hc (by simp [Instr.isPlain]) (spares_of_targets htargets (by decide))
  refine haccumulate.append fun e he => .cons rfl (fun a ha => absurd ha List.not_mem_nil) (.nil ?_)
  have hx20 : e.get .x20 = BitVec.ofNat 64 k := he.counter
  rw [hx20, BitVec.ofNat_add]
  exact he.setCounter _

/-- **The row loop** writes the cells of the listed nodes. -/
theorem leads_rows (hc : Enters .scalar g root pool c₀)
    (hidx : ∀ n ∈ g.loadNodes root,
      (ms n).fieldIdx = ((g.fieldNames root).idxOf (g.node n).fieldName : ℕ))
    (hnodes : (g.listing root).length ≤ 512) {code : List Item} {pos : ℕ}
    (hnd : (A64.labels code).Nodup)
    (hat : A64.At code pos (A64.loopItems 0 1 [.cmp .x20 (.imm 64)] .hs
      (scalarBody g ms (g.listing root)))) :
    LeadsWriting (GivenAt .scalar g root ms c₀) code pos
      (pos + (A64.loopItems 0 1 [.cmp .x20 (.imm 64)] .hs
        (scalarBody g ms (g.listing root))).length)
      (65 * (A64.loopItems 0 1 [.cmp .x20 (.imm 64)] .hs
        (scalarBody g ms (g.listing root))).length)
      (Inside .scalar g root pool c₀ 0) (Inside .scalar g root pool c₀ (BitVec.ofNat 64 64)) := by
  refine A64.leadsWriting_loop
    (I := fun k => Inside .scalar g root pool c₀ (BitVec.ofNat 64 k)) 64 hnd hat ?_ ?_
  · intro k hk c h
    have hx20 : c.get .x20 = BitVec.ofNat 64 k := h.counter
    refine .cons rfl (fun a ha => absurd ha List.not_mem_nil) (.nil ⟨?_, ?_⟩)
    · show A64.Cond.hs.holds (A64.Flags.ofSub (c.get .x20) (BitVec.ofNat 64 64)) = false
      rw [hx20, hs_ofNat (by omega) (by omega), decide_eq_false (by omega)]
    · exact writing_scalarBody hc hidx hnodes hk (h.with_flags _)
  · intro c h
    have hx20 : c.get .x20 = BitVec.ofNat 64 64 := h.counter
    refine .cons rfl (fun a ha => absurd ha List.not_mem_nil) (.nil ⟨?_, h.with_flags _⟩)
    show A64.Cond.hs.holds (A64.Flags.ofSub (c.get .x20) (BitVec.ofNat 64 64)) = true
    rw [hx20, hs_ofNat (by omega) (by omega), decide_eq_true (by omega)]

/-- The entry leads into the loop. -/
theorem writing_scalarPrologue (hc : Enters .scalar g root pool c₀) :
    Writing (Owns .scalar g root ms c₀) scalarPrologue c₀ (Inside .scalar g root pool c₀ 0) := by
  have hsplit : scalarPrologue = [A64.push (.x29, .x30)] ++ [.mov .x29 (.reg .sp)] ++
      (savedPairs .scalar).tail.map A64.push ++ [.mov .x19 (.imm 0), .mov .x20 (.imm 0)] := rfl
  rw [hsplit]
  refine (writing_pushes hc).append ?_
  rintro d ⟨hd, hget⟩
  refine .cons rfl (fun a ha => absurd ha List.not_mem_nil)
    (.cons rfl (fun a ha => absurd ha List.not_mem_nil) (.nil ⟨?_, ?_, ?_, ?_, ?_, ?_⟩))
  · exact (Cpu.get_set_of_ne _ _ (by decide)).trans
      ((Cpu.get_set_of_ne _ _ (by decide)).trans hd.sp)
  · exact (Cpu.get_set_of_ne _ _ (by decide)).trans
      ((Cpu.get_set_of_ne _ _ (by decide)).trans (hget _ (by decide) (by decide)))
  · exact (Cpu.get_set_of_ne _ _ (by decide)).trans
      ((Cpu.get_set_of_ne _ _ (by decide)).trans (hget _ (by decide) (by decide)))
  · exact Cpu.get_set_self _ _ (by decide)
  · intro r hr hnot
    have hne : r ≠ .x20 ∧ r ≠ .x19 ∧ r ≠ .sp ∧ r ≠ .x29 := by
      revert r
      decide
    exact (Cpu.get_set_of_ne _ _ hne.1).trans
      ((Cpu.get_set_of_ne _ _ hne.2.1).trans (hget r hne.2.2.1 hne.2.2.2))
  · exact Sound.of_pushed (c := d) hc hd

/-- The mask is returned and the frame is left. -/
theorem writing_scalarEpilogue {count : Word} (h : Inside .scalar g root pool c₀ count c) :
    Writing (Owns .scalar g root ms c₀) scalarEpilogue c
      fun d => ∀ r ∈ .sp :: calleeSaved, d.get r = c₀.get r := by
  have hmov : ∀ r ∈ .sp :: calleeSaved, (c.set .x0 (c.get .x19)).get r = c.get r := by
    intro r hr
    refine Cpu.get_set_of_ne _ _ ?_
    revert r
    decide
  refine .cons rfl (fun a ha => absurd ha List.not_mem_nil) (writing_pops .scalar ?_ ?_ ?_)
  · exact (hmov _ List.mem_cons_self).trans h.sp
  · exact h.sound.saved
  · exact fun r hr hnot => (hmov r (List.mem_cons_of_mem _ hr)).trans (h.others r hr hnot)

end Scalar

/-! ## The kernel -/

/-- **The scalar kernel keeps the frame.** -/
theorem keepsFrame_scalarCode {g : Graph} {root : NodeRef} {ms : NodeMetas} {pool : ConstPool}
    {c₀ : Cpu} (hc : Enters .scalar g root pool c₀)
    (hidx : ∀ n ∈ g.loadNodes root,
      (ms n).fieldIdx = ((g.fieldNames root).idxOf (g.node n).fieldName : ℕ))
    (hnodes : (g.listing root).length ≤ 512) :
    KeepsFrame .scalar g root ms (g.scalarCode root ms) c₀ := by
  have hnd : (A64.labels (g.scalarCode root ms)).Nodup := by
    rw [labels_scalarCode]
    decide
  have hat := oneLoop_scalarCode g root ms
  have hentry : ∀ c, c = c₀ → Writing (Owns .scalar g root ms c₀) scalarPrologue c
      (Inside .scalar g root pool c₀ 0) := by
    rintro c rfl
    exact writing_scalarPrologue hc
  have h₁ := A64.leadsWriting_block hat.atEntry hentry
  have h₂ := leads_rows hc hidx hnodes hnd hat.atLoop
  have hw₃ : ∀ c, Inside .scalar g root pool c₀ (BitVec.ofNat 64 64) c →
      Writing (Owns .scalar g root ms c₀) scalarEpilogue c
        fun d => ∀ r ∈ .sp :: calleeSaved, d.get r = c₀.get r := fun c h => writing_scalarEpilogue h
  have h₃ := A64.leadsWriting_block hat.atTail hw₃
  refine keepsFrame_of_leads ((h₁.trans (h₂.mono owns_of_given)).trans h₃) hat.atRet ?_
  rw [Caller.fuel, hat.length]
  omega

end Jit
end ApexEngine
