import ApexEngine.Jit.ExpressionRun
import Mathlib.Tactic.IntervalCases

/-!
# Calling a bit-sliced kernel

The remaining stretches of the code of `compile_expression`: the frame and the
initial carries before the first loop, the comparison registers and the second
loop, the conjunction of the masks and the epilogue.  `callExpr_expressionCode` is
the whole call.
-/

namespace ApexEngine
namespace Jit

open A64 (Word Reg Cpu Instr Item Frame)
open BitPlane (Comparison)

variable {caller : Caller} {planes : Planes} {scratch S stack : ℕ → Word} {g : Graph}
  {root : NodeRef} {ms : NodeMetas} {konst : NodeRef → Word} {c : Cpu}

/-! ## Before the first loop -/

/-- The registers the prologue saves, by the cell of the frame. -/
def savedReg (i : ℕ) : Reg :=
  [Reg.x27, .x28, .x25, .x26, .x23, .x24, .x21, .x22, .x19, .x20, .x29, .x30].getD i .x30

/-- The frame has the registers of the caller. -/
def Saved (stack : ℕ → Word) (c : Cpu) : Prop := ∀ i < 12, stack i = c.get (savedReg i)

/-- The frame is built, and the arguments are in `x19` and `x20`. -/
theorem expressionPrologue_exec (hmem : c.mem = caller.memory planes S stack)
    (hsp : c.get .sp = caller.layout.cell .stack 12)
    (hx0 : c.get .x0 = caller.layout.cell .planesArray 0)
    (hx1 : c.get .x1 = caller.layout.cell .scratch 0) :
    ∃ c' stack', A64.execs expressionPrologue c = some c' ∧ Saved stack' c ∧
      c'.mem = caller.memory planes S stack' ∧
      c'.get .x19 = caller.layout.cell .planesArray 0 ∧
      c'.get .x20 = caller.layout.cell .scratch 0 ∧
      c'.get .sp = caller.layout.cell .stack 0 ∧
      ∀ r, r ∉ [Reg.sp, .x29, .x19, .x20] → c'.get r = c.get r := by
  obtain ⟨c₁, hc₁, hm₁, hsp₁, hg₁⟩ := execs_push (j := 10) (by omega) hmem hsp .x29 .x30
    [.mov .x29 (.reg .sp), .stp .x19 .x20 (.pre .sp (-16)), .stp .x21 .x22 (.pre .sp (-16)),
      .stp .x23 .x24 (.pre .sp (-16)), .stp .x25 .x26 (.pre .sp (-16)),
      .stp .x27 .x28 (.pre .sp (-16)), .mov .x19 (.reg .x0), .mov .x20 (.reg .x1)]
  have hsp₁' : (c₁.set .x29 (c₁.get .sp)).get .sp = caller.layout.cell .stack (8 + 2) := by
    rw [Cpu.get_set_of_ne _ _ (by decide), hsp₁]
  obtain ⟨c₂, hc₂, hm₂, hsp₂, hg₂⟩ := execs_push (j := 8) (by omega)
    ((Cpu.mem_set c₁ .x29 _).trans hm₁) hsp₁' .x19 .x20
    [.stp .x21 .x22 (.pre .sp (-16)), .stp .x23 .x24 (.pre .sp (-16)),
      .stp .x25 .x26 (.pre .sp (-16)), .stp .x27 .x28 (.pre .sp (-16)), .mov .x19 (.reg .x0),
      .mov .x20 (.reg .x1)]
  obtain ⟨c₃, hc₃, hm₃, hsp₃, hg₃⟩ := execs_push (j := 6) (by omega) hm₂ hsp₂ .x21 .x22
    [.stp .x23 .x24 (.pre .sp (-16)), .stp .x25 .x26 (.pre .sp (-16)),
      .stp .x27 .x28 (.pre .sp (-16)), .mov .x19 (.reg .x0), .mov .x20 (.reg .x1)]
  obtain ⟨c₄, hc₄, hm₄, hsp₄, hg₄⟩ := execs_push (j := 4) (by omega) hm₃ hsp₃ .x23 .x24
    [.stp .x25 .x26 (.pre .sp (-16)), .stp .x27 .x28 (.pre .sp (-16)), .mov .x19 (.reg .x0),
      .mov .x20 (.reg .x1)]
  obtain ⟨c₅, hc₅, hm₅, hsp₅, hg₅⟩ := execs_push (j := 2) (by omega) hm₄ hsp₄ .x25 .x26
    [.stp .x27 .x28 (.pre .sp (-16)), .mov .x19 (.reg .x0), .mov .x20 (.reg .x1)]
  obtain ⟨c₆, hc₆, hm₆, hsp₆, hg₆⟩ := execs_push (j := 0) (by omega) hm₅ hsp₅ .x27 .x28
    [.mov .x19 (.reg .x0), .mov .x20 (.reg .x1)]
  -- apart from `x29` the pushes change the stack pointer only
  have hget₂ : ∀ r, r ≠ .sp → r ≠ .x29 → c₂.get r = c.get r := by
    intro r hr hr'
    rw [hg₂ r hr, Cpu.get_set_of_ne _ _ hr', hg₁ r hr]
  have hget₃ : ∀ r, r ≠ .sp → r ≠ .x29 → c₃.get r = c.get r := fun r hr hr' =>
    (hg₃ r hr).trans (hget₂ r hr hr')
  have hget₄ : ∀ r, r ≠ .sp → r ≠ .x29 → c₄.get r = c.get r := fun r hr hr' =>
    (hg₄ r hr).trans (hget₃ r hr hr')
  have hget₅ : ∀ r, r ≠ .sp → r ≠ .x29 → c₅.get r = c.get r := fun r hr hr' =>
    (hg₅ r hr).trans (hget₄ r hr hr')
  have hget : ∀ r, r ≠ .sp → r ≠ .x29 → c₆.get r = c.get r := fun r hr hr' =>
    (hg₆ r hr).trans (hget₅ r hr hr')
  refine ⟨(c₆.set .x19 (c₆.get .x0)).set .x20 ((c₆.set .x19 (c₆.get .x0)).get .x1), _, ?_, ?_, hm₆,
    ?_, ?_, ?_, ?_⟩
  · rw [expressionPrologue, hc₁, A64.execs_mov, Cpu.operand_reg, hc₂, hc₃, hc₄, hc₅, hc₆]
    rfl
  · simp only [hget₅, hget₄, hget₃, hget₂, hg₁, Cpu.get_set_of_ne, ne_eq, reduceCtorEq,
      not_false_eq_true]
    intro i hi
    interval_cases i <;> rfl
  · rw [Cpu.get_set_of_ne _ _ (by decide), Cpu.get_set_self _ _ (by decide),
      hget _ (by decide) (by decide), hx0]
  · rw [Cpu.get_set_self _ _ (by decide), Cpu.get_set_of_ne _ _ (by decide),
      hget _ (by decide) (by decide), hx1]
  · rw [Cpu.get_set_of_ne _ _ (by decide), Cpu.get_set_of_ne _ _ (by decide), hsp₆]
  · intro r hr
    simp only [List.mem_cons, List.not_mem_nil, or_false, not_or] at hr
    rw [Cpu.get_set_of_ne _ _ hr.2.2.2, Cpu.get_set_of_ne _ _ hr.2.2.1, hget r hr.1 hr.2.1]

/-- The carry registers get the carries the adders start from. -/
theorem carryInits_exec (hcall : Callable caller planes g root ms konst) {p q : List NodeRef}
    (hsplit : g.arithmeticNodes root = p ++ q) (a b : Word)
    (h : ∀ n ∈ g.adderNodes root, n ∈ p →
      c.get (carryRegs (ms n).carryReg) = (Circuit.start g a b).carry n) :
    ∃ c', A64.execs (q.flatMap (carryInit g ms)) c = some c' ∧ c'.mem = c.mem ∧
      (∀ n ∈ g.adderNodes root,
        c'.get (carryRegs (ms n).carryReg) = (Circuit.start g a b).carry n) ∧
      ∀ r, ¬ IsCarryReg r → c'.get r = c.get r := by
  induction q generalizing p c with
  | nil =>
    rw [List.append_nil] at hsplit
    exact ⟨c, rfl, rfl, fun n hn => h n hn (hsplit ▸ adderNodes_subset hn), fun _ _ => rfl⟩
  | cons n q ih =>
    have hrest : g.arithmeticNodes root = (p ++ [n]) ++ q := by rw [hsplit]; simp
    by_cases hadd : (g.kind n).isAdder = true
    · have hn : n ∈ g.adderNodes root := mem_adders.mpr ⟨by rw [hsplit]; simp, hadd⟩
      have hcarry := isCarryReg_of_mem (hcall.allocated.carry_mem hcall.arithmetic_le hn)
      have hz : carryRegs (ms n).carryReg ≠ .xzr := fun heq => hcarry (by simp [heq])
      have hpos : 0 ≤ (ms n).carryReg := by
        rw [hcall.allocated.carryReg n hn]
        omega
      have hcode : carryInit g ms n =
          [.mov (carryRegs (ms n).carryReg) (.imm ((Circuit.start g a b).carry n))] := by
        rw [carryInit, if_pos hpos]
        rcases NodeKind.isAdder_iff.mp hadd with hk | hk <;> simp [Circuit.start, hk]
      obtain ⟨c', hc', hm, hget, hframe⟩ := ih (p := p ++ [n])
        (c := c.set (carryRegs (ms n).carryReg) ((Circuit.start g a b).carry n)) hrest (by
          intro m hm hmp
          by_cases hmn : m = n
          · subst hmn
            rw [Cpu.get_set_self _ _ hz]
          · rw [Cpu.get_set_of_ne]
            · exact h m hm (by simpa [hmn] using hmp)
            · exact fun heq => hmn (hcall.allocated.carry_inj hcall.arithmetic_le hm hn heq))
      refine ⟨c', ?_, hm, hget, fun r hr => ?_⟩
      · rw [List.flatMap_cons, hcode, A64.execs_append]
        exact hc'
      · rw [hframe r hr, Cpu.get_set_of_ne]
        rintro rfl
        exact hr hcarry
    · have hcode : carryInit g ms n = [] := by
        unfold carryInit
        split
        · split
          · exact absurd (NodeKind.isAdder_iff.mpr (Or.inl ‹_›)) hadd
          · exact absurd (NodeKind.isAdder_iff.mpr (Or.inr ‹_›)) hadd
          · rfl
        · rfl
      rw [List.flatMap_cons, hcode, List.nil_append]
      exact ih hrest fun m hm hmp => h m hm (by
        have hmn : m ≠ n := fun heq => hadd (heq ▸ (mem_adders.mp hm).2)
        simpa [hmn] using hmp)

/-- The machine at the entry of the kernel. -/
structure Entered (caller : Caller) (planes : Planes) (scratch : Scratch) (c : Cpu) : Prop where
  mem : c.mem = caller.memory planes scratch caller.stackWords
  sp : c.get .sp = caller.layout.cell .stack 12
  x0 : c.get .x0 = caller.layout.cell .planesArray 0
  x1 : c.get .x1 = caller.layout.cell .scratch 0

/-- **Up to the first loop.**  The wires are whatever the caller left in `x2` and
`x3`. -/
theorem phase1Entry_exec (hcall : Callable caller planes g root ms konst)
    (h : Entered caller planes scratch c) :
    ∃ c' stack, A64.execs (phase1Entry g ms (g.arithmeticNodes root)) c = some c' ∧
      Saved stack c ∧
      AtBit caller planes scratch stack g root ms (c.get .x2) (c.get .x3) 0 c' := by
  obtain ⟨c₁, stack, hc₁, hsaved, hm₁, h19, h20, hsp, hget₁⟩ :=
    expressionPrologue_exec h.mem h.sp h.x0 h.x1
  obtain ⟨c₂, hc₂, hm₂, hcarry, hget₂⟩ := carryInits_exec (c := c₁) hcall (p := [])
    (List.nil_append _).symm (c.get .x2) (c.get .x3) fun n _ hn => absurd hn (by simp)
  have hget : ∀ r, r ≠ .x15 → (c₂.set .x15 0).get r = c₂.get r := fun r hr =>
    Cpu.get_set_of_ne _ _ hr
  refine ⟨c₂.set .x15 0, stack, ?_, hsaved, scratch, ?_⟩
  · rw [phase1Entry, A64.execs_append, A64.execs_append, hc₁, Option.bind_some, hc₂,
      Option.bind_some]
    rfl
  · constructor
    · refine ⟨hm₂.trans hm₁, ?_, ?_, ?_, ?_⟩
      · rw [Cpu.get_set_self _ _ (by decide)]
        rfl
      · rw [hget _ (by decide), hget₂ _ (by unfold IsCarryReg; decide), h19]
      · rw [hget _ (by decide), hget₂ _ (by unfold IsCarryReg; decide), h20]
      · rw [hget _ (by decide), hget₂ _ (by unfold IsCarryReg; decide), hsp]
    · rw [hget _ (by decide), hget₂ _ (by unfold IsCarryReg; decide), hget₁ _ (by decide)]
      rfl
    · rw [hget _ (by decide), hget₂ _ (by unfold IsCarryReg; decide), hget₁ _ (by decide)]
      rfl
    · intro n hn
      have h15 : carryRegs (ms n).carryReg ≠ .x15 := fun heq =>
        isCarryReg_of_mem (hcall.allocated.carry_mem hcall.arithmetic_le hn) (by simp [heq])
      rw [hget _ h15, hcarry n hn]
      rfl
    · exact fun n _ b hb => absurd hb (by omega)
    · exact fun n hn => absurd hn (by simp)
    · exact fun j _ => rfl

/-! ## The comparisons -/

theorem mem_collectComparisons {n : NodeRef} (h : n ∈ collectComparisons g root) :
    g.Reach root n ∧ (g.kind n = .gt ∨ g.kind n = .lt ∨ g.kind n = .eq) := by
  induction root using g.induction with
  | h i ih =>
    rw [collectComparisons, g.fold_eq] at h
    split at h
    · rename_i hk
      obtain rfl := List.mem_singleton.mp h
      exact ⟨.refl, Or.inl hk⟩
    · rename_i hk
      obtain rfl := List.mem_singleton.mp h
      exact ⟨.refl, Or.inr (Or.inl hk)⟩
    · rename_i hk
      obtain rfl := List.mem_singleton.mp h
      exact ⟨.refl, Or.inr (Or.inr hk)⟩
    · -- a conjunction collects from its children
      have hchild : ∀ o : Option NodeRef, (∀ m, o = some m → m ∈ (g.node i).children) →
          n ∈ (o.map (collectComparisons g)).getD [] →
          g.Reach i n ∧ (g.kind n = .gt ∨ g.kind n = .lt ∨ g.kind n = .eq) := by
        intro o ho hmem
        cases o with
        | none => exact absurd hmem (by simp)
        | some m =>
          obtain ⟨hr, hk⟩ := ih m (ho m rfl) hmem
          exact ⟨hr.head (ho m rfl), hk⟩
      rcases List.mem_append.mp h with h | h
      · exact hchild _ (fun m hm => Node.mem_children.mpr (Or.inl hm)) h
      · exact hchild _ (fun m hm => Node.mem_children.mpr (Or.inr (Or.inl hm))) h
    · exact absurd h (by simp)

theorem compared_reach {n m : NodeRef} (hn : n ∈ Circuit.compared g root)
    (hm : m ∈ (g.node n).children) : m ∈ g.listing root := by
  rw [g.mem_listing]
  exact (mem_collectComparisons (List.mem_of_mem_take hn)).1.tail hm

/-- The registers the comparisons use for anything else. -/
def comparisonTemps : List Reg :=
  [.x2, .x3, .x4, .x6, .x7, .x14, .x15, .x19, .x20, .sp, .xzr]

theorem cmpRegs_notMem : ∀ i < 3,
    cmpGtRegs i ∉ comparisonTemps ∧ cmpEqRegs i ∉ comparisonTemps := by decide

/-- The registers of the comparisons are apart from each other. -/
theorem cmpRegs_inj : ∀ i < 3, ∀ j < 3, cmpGtRegs i ≠ cmpEqRegs j ∧
    (i ≠ j → cmpGtRegs i ≠ cmpGtRegs j ∧ cmpEqRegs i ≠ cmpEqRegs j) := by decide

/-- The emitted comparator is a step of the comparison. -/
theorem emitGt64_exec {aBit bBit gt eq : Reg} (ha : aBit = .x2 ∨ aBit = .x3)
    (hb : bBit = .x2 ∨ bBit = .x3) (hgt : gt ∉ comparisonTemps) (heq : eq ∉ comparisonTemps)
    (hne : gt ≠ eq) (c : Cpu) :
    ∃ c', A64.execs (emitGt64 aBit bBit gt eq) c = some c' ∧ Frame [.x6, .x7, gt, eq] c c' ∧
      (⟨c'.get gt, c'.get eq⟩ : Comparison 64) =
        Comparison.step (c.get aBit) (c.get bBit) ⟨c.get gt, c.get eq⟩ := by
  simp only [comparisonTemps, List.mem_cons, List.not_mem_nil, or_false, not_or] at hgt heq
  obtain ⟨g2, g3, -, g6, g7, -, -, -, -, -, gz⟩ := hgt
  obtain ⟨e2, e3, -, e6, e7, -, -, -, -, -, ez⟩ := heq
  refine ⟨_, rfl, ?_, ?_⟩
  · exact (((((Frame.refl _ c).set (by simp) _).set (by simp) _).set (by simp) _).set (by simp) _).set
      (by simp) _
  · rcases ha with rfl | rfl <;> rcases hb with rfl | rfl <;>
      simp [A64.BinOp.eval, Comparison.step, g6, g7, gz, e6, e7, ez, hne, Ne.symm hne, Ne.symm g2,
        Ne.symm g3]

/-- Every slot has the planes the second loop reads. -/
def Filled (g : Graph) (root : NodeRef) (ms : NodeMetas) (inp : NodeRef → ℕ → Word)
    (T : ℕ → NodeRef → Word) (S : Scratch) : Prop :=
  ∀ m ∈ g.arithmeticNodes root, ∀ b < 64,
    S (slotCell ms m b) = if (g.kind m).isAdder then T b m else inp m b

/-- The machine in the second loop, with `num` comparisons: the wires and the masks
are in their registers. -/
structure ComparingAt (caller : Caller) (planes : Planes) (S stack : ℕ → Word) (num : ℕ)
    (bit : Word) (s : Circuit.Comparing) (c : Cpu) : Prop where
  running : Running caller planes S stack bit c
  a : c.get .x2 = s.a
  b : c.get .x3 = s.b
  cmp : ∀ i < num, (⟨c.get (cmpGtRegs i), c.get (cmpEqRegs i)⟩ : Comparison 64) = s.cmp i

section Compare

variable {T : ℕ → NodeRef → Word} {num k : ℕ} {s : Circuit.Comparing}

/-- The masks of the other comparisons are not touched. -/
theorem cmp_of_frame {c c' : Cpu} {i : ℕ} {rs : List Reg} (hf : Frame rs c c')
    (hgt : cmpGtRegs i ∉ rs) (heq : cmpEqRegs i ∉ rs) :
    (⟨c'.get (cmpGtRegs i), c'.get (cmpEqRegs i)⟩ : Comparison 64) =
      ⟨c.get (cmpGtRegs i), c.get (cmpEqRegs i)⟩ := by
  rw [hf.get _ hgt, hf.get _ heq]

/-- What a comparator leaves as it was. -/
theorem notMem_comparator {i : ℕ} (hi : i < 3) {r : Reg}
    (hr : r ∈ [Reg.x2, .x3, .x15, .x19, .x20, .sp]) :
    r ∉ [Reg.x6, .x7, cmpGtRegs i, cmpEqRegs i] := by
  have hsub : ∀ r ∈ [Reg.x2, .x3, .x15, .x19, .x20, .sp],
      r ∈ comparisonTemps ∧ r ≠ .x6 ∧ r ≠ .x7 := by decide
  obtain ⟨htemp, h6, h7⟩ := hsub r hr
  obtain ⟨hgt, heq⟩ := cmpRegs_notMem i hi
  simp only [List.mem_cons, List.not_mem_nil, or_false, not_or]
  exact ⟨h6, h7, fun h => hgt (h ▸ htemp), fun h => heq (h ▸ htemp)⟩

/-- A comparator leaves the masks of the other comparisons as they were. -/
theorem cmpRegs_notMem_comparator {i j : ℕ} (hi : i < 3) (hj : j < 3) (hij : j ≠ i) :
    cmpGtRegs j ∉ [Reg.x6, .x7, cmpGtRegs i, cmpEqRegs i] ∧
      cmpEqRegs j ∉ [Reg.x6, .x7, cmpGtRegs i, cmpEqRegs i] := by
  have hne := cmpRegs_inj j hj i hi
  have hne' := cmpRegs_inj i hi j hj
  obtain ⟨hgt, heq⟩ := cmpRegs_notMem j hj
  have hout : ∀ r, r ∉ comparisonTemps → r ≠ .x6 ∧ r ≠ .x7 := fun r hr =>
    ⟨fun h6 => hr (h6 ▸ by decide), fun h7 => hr (h7 ▸ by decide)⟩
  simp only [List.mem_cons, List.not_mem_nil, or_false, not_or]
  exact ⟨⟨(hout _ hgt).1, (hout _ hgt).2, (hne.2 hij).1, hne.1⟩,
    ⟨(hout _ heq).1, (hout _ heq).2, Ne.symm hne'.1, (hne.2 hij).2⟩⟩

/-- **The comparator**, its operands in either order. -/
theorem ComparingAt.emitGt64 (h : ComparingAt caller planes S stack num (BitVec.ofNat 64 k) s c)
    (hnum : num ≤ 3) {i : ℕ} (hi : i < num) {x y : Reg} (hx : x = .x2 ∨ x = .x3)
    (hy : y = .x2 ∨ y = .x3) :
    ∃ c', A64.execs (emitGt64 x y (cmpGtRegs i) (cmpEqRegs i)) c = some c' ∧
      ComparingAt caller planes S stack num (BitVec.ofNat 64 k)
        { s with cmp := Function.update s.cmp i ((s.cmp i).step (c.get x) (c.get y)) } c' := by
  obtain ⟨hgt, heq⟩ := cmpRegs_notMem i (by omega)
  obtain ⟨c', hc', hf, hstep⟩ := emitGt64_exec hx hy hgt heq
    (cmpRegs_inj i (by omega) i (by omega)).1 c
  have hfree : ∀ r ∈ [Reg.x2, .x3, .x15, .x19, .x20, .sp],
      r ∉ [Reg.x6, .x7, cmpGtRegs i, cmpEqRegs i] := fun r hr => notMem_comparator (by omega) hr
  refine ⟨c', hc', h.running.frame hf (hfree _ (by decide)) (hfree _ (by decide))
    (hfree _ (by decide)) (hfree _ (by decide)), (hf.get _ (hfree _ (by decide))).trans h.a,
    (hf.get _ (hfree _ (by decide))).trans h.b, fun j hj => ?_⟩
  by_cases hij : j = i
  · subst hij
    rw [hstep, h.cmp j hj]
    exact (Function.update_self _ _ s.cmp).symm
  · obtain ⟨hgtj, heqj⟩ := cmpRegs_notMem_comparator (by omega) (by omega) hij
    rw [cmp_of_frame hf hgtj heqj, h.cmp j hj]
    exact (Function.update_of_ne hij _ s.cmp).symm

/-- The operands of a comparison are loaded onto the wires; the masks stay. -/
theorem ComparingAt.operands_exec (hcall : Callable caller planes g root ms konst) (hk : k < 64)
    (hnum : num ≤ 3) (hfill : Filled g root ms (inputs g ms planes scratch) T S)
    (h : ComparingAt caller planes S stack num (BitVec.ofNat 64 k) s c) {n : NodeRef}
    (hn : n ∈ Circuit.compared g root) :
    ∃ c', A64.execs (getOperandAtBit g ms konst (g.node n).left .x2 ++
        getOperandAtBit g ms konst (g.node n).right .x3) c = some c' ∧
      ComparingAt caller planes S stack num (BitVec.ofNat 64 k)
        { s with
          a := Circuit.operandPlane g (inputs g ms planes scratch) k (T k) (g.node n).left s.a
          b := Circuit.operandPlane g (inputs g ms planes scratch) k (T k) (g.node n).right s.b }
        c' := by
  obtain ⟨c', hc', hf, hv₁, hv₂⟩ := operandsAtBit_exec hcall hk h.running
    (fun m hm => compared_reach hn hm) fun m _ hm => hfill m hm k hk
  rw [h.a] at hv₁
  rw [h.b] at hv₂
  refine ⟨c', hc', h.running.frame hf (by decide) (by decide) (by decide) (by decide), hv₁, hv₂,
    fun j hj => ?_⟩
  obtain ⟨hgt, heq⟩ := cmpRegs_notMem j (by omega)
  have hsub : [Reg.x2, .x3, .x4, .x14] ⊆ comparisonTemps := by decide
  rw [cmp_of_frame hf (fun hm => hgt (hsub hm)) fun hm => heq (hsub hm), h.cmp j hj]

/-- **The code of one comparison is one comparison of the circuit.** -/
theorem comparisonBlockAt_exec (hcall : Callable caller planes g root ms konst) (hk : k < 64)
    (hnum : num ≤ 3) (hfill : Filled g root ms (inputs g ms planes scratch) T S)
    (h : ComparingAt caller planes S stack num (BitVec.ofNat 64 k) s c) {n : NodeRef} {i : ℕ}
    (hn : n ∈ Circuit.compared g root) (hi : i < num) :
    ∃ c', A64.execs (comparisonBlockAt g ms konst n i) c = some c' ∧
      ComparingAt caller planes S stack num (BitVec.ofNat 64 k)
        (Circuit.compareStep g (inputs g ms planes scratch) k (T k) s (n, i)) c' := by
  obtain ⟨c₁, hc₁, h₁⟩ := h.operands_exec hcall hk hnum hfill hn
  unfold comparisonBlockAt Circuit.compareStep
  cases hkind : g.kind n with
  | lt =>
    obtain ⟨c₂, hc₂, h₂⟩ := h₁.emitGt64 hnum hi (Or.inr rfl) (Or.inl rfl)
    rw [h₁.a, h₁.b] at h₂
    refine ⟨c₂, ?_, h₂⟩
    simp only
    rw [A64.execs_append, hc₁, Option.bind_some, hc₂]
  | gt =>
    obtain ⟨c₂, hc₂, h₂⟩ := h₁.emitGt64 hnum hi (Or.inl rfl) (Or.inr rfl)
    rw [h₁.a, h₁.b] at h₂
    refine ⟨c₂, ?_, h₂⟩
    simp only
    rw [A64.execs_append, hc₁, Option.bind_some, hc₂]
  | _ => exact ⟨c, rfl, h⟩

/-- The code of some comparisons does for each what it has to. -/
theorem comparisonBlocks_exec' (hcall : Callable caller planes g root ms konst) (hk : k < 64)
    (hnum : num ≤ 3) (hfill : Filled g root ms (inputs g ms planes scratch) T S)
    {l : List (NodeRef × ℕ)} (hl : ∀ q ∈ l, q.1 ∈ Circuit.compared g root ∧ q.2 < num)
    (h : ComparingAt caller planes S stack num (BitVec.ofNat 64 k) s c) :
    ∃ c', A64.execs (l.flatMap fun q => comparisonBlockAt g ms konst q.1 q.2) c = some c' ∧
      ComparingAt caller planes S stack num (BitVec.ofNat 64 k)
        (l.foldl (Circuit.compareStep g (inputs g ms planes scratch) k (T k)) s) c' := by
  induction l generalizing s c with
  | nil => exact ⟨c, rfl, h⟩
  | cons q l ih =>
    obtain ⟨hq, hq'⟩ := hl q (by simp)
    obtain ⟨c₁, hc₁, h₁⟩ := comparisonBlockAt_exec hcall hk hnum hfill h hq hq'
    obtain ⟨c₂, hc₂, h₂⟩ := ih (fun r hr => hl r (by simp [hr])) h₁
    refine ⟨c₂, ?_, h₂⟩
    rw [List.flatMap_cons, A64.execs_append, hc₁]
    exact hc₂

end Compare

/-! ## The second loop -/

section Phase2

variable {T : ℕ → NodeRef → Word} {num k : ℕ} {s : Circuit.Comparing}

/-- A signed comparison with zero looks at the sign. -/
theorem lt_zero (x : Word) : A64.Cond.lt.holds (A64.Flags.ofSub x 0) = x.msb := by
  simp [A64.Cond.holds, A64.Flags.ofSub]

theorem ofNat_succ_sub_one (k : ℕ) : BitVec.ofNat 64 (k + 1) - 1 = BitVec.ofNat 64 k := by
  rw [BitVec.ofNat_add]
  exact BitVec.add_sub_cancel _ _

/-- The machine before the `k` remaining bits of the second loop, which ends with
the comparisons in `final`. -/
def Remaining (caller : Caller) (planes : Planes) (scratch S stack : ℕ → Word) (g : Graph)
    (root : NodeRef) (ms : NodeMetas) (T : ℕ → NodeRef → Word) (final : Circuit.Comparing) (k : ℕ)
    (c : Cpu) : Prop :=
  ∃ s, Circuit.phase2 g (inputs g ms planes scratch) (Circuit.compared g root) T k s = final ∧
    ComparingAt caller planes S stack (Circuit.compared g root).length (BitVec.ofNat 64 k - 1) s c

variable {final : Circuit.Comparing}

theorem compared_length_le (g : Graph) (root : NodeRef) :
    (Circuit.compared g root).length ≤ 3 := by
  rw [Circuit.compared, List.length_take]
  omega

/-- **One iteration of the second loop.** -/
theorem phase2Body_exec (hcall : Callable caller planes g root ms konst) (hk : k < 64)
    (hfill : Filled g root ms (inputs g ms planes scratch) T S)
    (h : Remaining caller planes scratch S stack g root ms T final (k + 1) c) :
    ∃ c', A64.execs (phase2Body g ms konst (collectComparisons g root)) c = some c' ∧
      Remaining caller planes scratch S stack g root ms T final k c' := by
  obtain ⟨s, hs, h⟩ := h
  rw [ofNat_succ_sub_one] at h
  obtain ⟨c₁, hc₁, h₁⟩ := comparisonBlocks_exec' (l := (Circuit.compared g root).zipIdx) hcall hk
    (compared_length_le g root) hfill (fun q hq => by
      have := List.snd_lt_of_mem_zipIdx hq
      rw [Nat.add_zero] at this
      exact ⟨List.fst_mem_of_mem_zipIdx hq, this⟩) h
  have hget : ∀ r, r ≠ .x15 → (c₁.set .x15 (BitVec.ofNat 64 k - 1)).get r = c₁.get r :=
    fun r hr => Cpu.get_set_of_ne _ _ hr
  refine ⟨c₁.set .x15 (BitVec.ofNat 64 k - 1), ?_, _, hs, ?_⟩
  · show A64.execs (((Circuit.compared g root).zipIdx.flatMap
      fun q => comparisonBlockAt g ms konst q.1 q.2) ++ [.bin .sub .x15 .x15 (.imm 1)]) c = _
    rw [A64.execs_append, hc₁, Option.bind_some, A64.execs_bin, h₁.running.x15]
    rfl
  · refine ⟨⟨h₁.running.mem, ?_, ?_, ?_, ?_⟩, ?_, ?_, fun i hi => ?_⟩
    · rw [Cpu.get_set_self _ _ (by decide)]
    · rw [hget _ (by decide), h₁.running.x19]
    · rw [hget _ (by decide), h₁.running.x20]
    · rw [hget _ (by decide), h₁.running.sp]
    · rw [hget _ (by decide), h₁.a]
    · rw [hget _ (by decide), h₁.b]
    · have hi3 : i < 3 := Nat.lt_of_lt_of_le hi (compared_length_le g root)
      have h15 : ∀ i < 3, cmpGtRegs i ≠ .x15 ∧ cmpEqRegs i ≠ .x15 := by decide
      rw [hget _ (h15 i hi3).1, hget _ (h15 i hi3).2, h₁.cmp i hi]

theorem Remaining.with_flags
    (h : Remaining caller planes scratch S stack g root ms T final k c) (f : A64.Flags) :
    Remaining caller planes scratch S stack g root ms T final k { c with flags := f } := by
  obtain ⟨s, hs, h⟩ := h
  exact ⟨s, hs, ⟨⟨h.running.mem, h.running.x15, h.running.x19, h.running.x20, h.running.sp⟩, h.a,
    h.b, h.cmp⟩⟩

/-- **The second loop** runs through the planes backwards and leaves the comparisons decided. -/
theorem phase2_leads (hcall : Callable caller planes g root ms konst)
    (hfill : Filled g root ms (inputs g ms planes scratch) T S) {code : List Item} {pos : ℕ}
    (hnd : (A64.labels code).Nodup)
    (hat : A64.At code pos (A64.loopItems 2 3 [.cmp .x15 (.imm 0)] .lt
      (phase2Body g ms konst (collectComparisons g root)))) :
    A64.Leads code pos
      (pos + (A64.loopItems 2 3 [.cmp .x15 (.imm 0)] .lt
        (phase2Body g ms konst (collectComparisons g root))).length)
      (65 * (A64.loopItems 2 3 [.cmp .x15 (.imm 0)] .lt
        (phase2Body g ms konst (collectComparisons g root))).length)
      (Remaining caller planes scratch S stack g root ms T final 64)
      (Remaining caller planes scratch S stack g root ms T final 0) := by
  refine A64.leads_loop
    (I := fun j => Remaining caller planes scratch S stack g root ms T final (64 - j)) 64 hnd hat
    ?_ ?_
  · intro j hj c hc
    have hstep : 64 - j = 64 - (j + 1) + 1 := by omega
    have hx15 : c.get .x15 = BitVec.ofNat 64 (64 - (j + 1)) := by
      obtain ⟨s, -, h⟩ := hc
      rw [h.running.x15, hstep, ofNat_succ_sub_one]
    refine ⟨_, rfl, ?_, ?_⟩
    · show A64.Cond.lt.holds (A64.Flags.ofSub (c.get .x15) 0) = false
      rw [hx15, lt_zero, BitVec.msb_eq_false_iff_two_mul_lt, BitVec.toNat_ofNat]
      omega
    · simp only [hstep] at hc
      exact phase2Body_exec hcall (by omega) hfill (hc.with_flags _)
  · intro c hc
    have hx15 : c.get .x15 = BitVec.ofNat 64 0 - 1 := by
      obtain ⟨s, -, h⟩ := hc
      exact h.running.x15
    refine ⟨_, rfl, ?_, hc.with_flags _⟩
    show A64.Cond.lt.holds (A64.Flags.ofSub (c.get .x15) 0) = true
    rw [hx15, lt_zero]
    decide

/-- Nothing is decided before the second loop. -/
theorem comparisonInits_exec {n : ℕ} (hn : n ≤ 3) (c : Cpu) :
    ∃ c', A64.execs ((List.range n).flatMap comparisonInit) c = some c' ∧ c'.mem = c.mem ∧
      (∀ i < n, (⟨c'.get (cmpGtRegs i), c'.get (cmpEqRegs i)⟩ : Comparison 64) = .start) ∧
      ∀ r ∈ comparisonTemps, c'.get r = c.get r := by
  induction n with
  | zero => exact ⟨c, rfl, rfl, fun i hi => absurd hi (by omega), fun _ _ => rfl⟩
  | succ n ih =>
    obtain ⟨c₁, hc₁, hm, hcmp, hget⟩ := ih (by omega)
    obtain ⟨hgt, heq⟩ := cmpRegs_notMem n (by omega)
    have hne := cmpRegs_inj n (by omega) n (by omega)
    have hz : cmpGtRegs n ≠ .xzr ∧ cmpEqRegs n ≠ .xzr :=
      ⟨fun h => hgt (h ▸ by decide), fun h => heq (h ▸ by decide)⟩
    refine ⟨(c₁.set (cmpGtRegs n) 0).set (cmpEqRegs n) (~~~(0 : Word)), ?_, hm, ?_, ?_⟩
    · rw [List.range_succ, List.flatMap_append, A64.execs_append, hc₁]
      rfl
    · intro i hi
      rcases Nat.lt_succ_iff_lt_or_eq.mp hi with hi | rfl
      · have hni := cmpRegs_inj i (by omega) n (by omega)
        have hni' := cmpRegs_inj n (by omega) i (by omega)
        rw [Cpu.get_set_of_ne _ _ hni.1, Cpu.get_set_of_ne _ _ (hni.2 (by omega)).1,
          Cpu.get_set_of_ne _ _ (hni.2 (by omega)).2, Cpu.get_set_of_ne _ _ (Ne.symm hni'.1),
          hcmp i hi]
      · rw [Cpu.get_set_of_ne _ _ hne.1, Cpu.get_set_self _ _ hz.1, Cpu.get_set,
          if_neg hz.2, if_pos rfl]
        exact Comparison.ext rfl (by decide : ~~~(0 : Word) = BitVec.allOnes 64)
    · intro r hr
      have hr₁ : r ≠ cmpGtRegs n := fun h => hgt (h.symm ▸ hr)
      have hr₂ : r ≠ cmpEqRegs n := fun h => heq (h.symm ▸ hr)
      rw [Cpu.get_set_of_ne _ _ hr₂, Cpu.get_set_of_ne _ _ hr₁, hget r hr]

/-- What the first loop has left in the slots. -/
theorem filled_of_adding (hcall : Callable caller planes g root ms konst) {w : Circuit.Wires}
    (h : Adding caller planes scratch stack g root ms T 64 [] w S c) :
    Filled g root ms (inputs g ms planes scratch) T S := by
  intro m hm b hb
  by_cases hadd : (g.kind m).isAdder = true
  · rw [if_pos hadd]
    exact h.done m (mem_adders.mpr ⟨hm, hadd⟩) b hb
  · rw [if_neg hadd, h.rest]
    · have hka := ((g.mem_arithmeticNodes root).mp hm).2
      unfold inputs
      split
      · rename_i hl
        rw [hl] at hka
        exact absurd hka (by decide)
      · rename_i hl
        rw [hl] at hka
        exact absurd hka (by decide)
      · rfl
    · intro n hn b' hb' heq
      obtain ⟨rfl, -⟩ := hcall.allocated.slotCell_inj hm (adderNodes_subset hn) hb hb' heq
      exact hadd (mem_adders.mp hn).2

/-- **Between the loops** the verdicts are set to what they are before the first plane. -/
theorem phase2Entry_exec {w : Circuit.Wires}
    (h : Adding caller planes scratch stack g root ms T 64 [] w S c) :
    ∃ c', A64.execs (phase2Entry (collectComparisons g root).length) c = some c' ∧
      Remaining caller planes scratch S stack g root ms T
        (Circuit.phase2 g (inputs g ms planes scratch) (Circuit.compared g root) T 64
          ⟨w.a, w.b, fun _ => .start⟩) 64 c' := by
  obtain ⟨c₁, hc₁, hm, hcmp, hget⟩ := comparisonInits_exec
    (n := min (collectComparisons g root).length 3) (Nat.min_le_right _ _) c
  have hget₁ : ∀ r, r ≠ .x15 → (c₁.set .x15 63).get r = c₁.get r :=
    fun r hr => Cpu.get_set_of_ne _ _ hr
  refine ⟨c₁.set .x15 63, ?_, _, rfl, ⟨hm.trans h.running.mem, ?_, ?_, ?_, ?_⟩, ?_, ?_,
    fun i hi => ?_⟩
  · rw [phase2Entry, A64.execs_append, hc₁]
    rfl
  · rw [Cpu.get_set_self _ _ (by decide)]
    rfl
  · rw [hget₁ _ (by decide), hget _ (by decide), h.running.x19]
  · rw [hget₁ _ (by decide), hget _ (by decide), h.running.x20]
  · rw [hget₁ _ (by decide), hget _ (by decide), h.running.sp]
  · rw [hget₁ _ (by decide), hget _ (by decide), h.a]
  · rw [hget₁ _ (by decide), hget _ (by decide), h.b]
  · have hi3 : i < 3 := Nat.lt_of_lt_of_le hi (compared_length_le g root)
    have h15 : ∀ i < 3, cmpGtRegs i ≠ .x15 ∧ cmpEqRegs i ≠ .x15 := by decide
    rw [hget₁ _ (h15 i hi3).1, hget₁ _ (h15 i hi3).2, hcmp i (by
      rw [Circuit.compared, List.length_take] at hi
      omega)]

/-! ## The result -/

/-- The masks are put together by AND. -/
theorem foldMasks_exec {cmp : ℕ → Comparison 64} {n : ℕ}
    (h : ∀ i < min n 3, (⟨c.get (cmpGtRegs i), c.get (cmpEqRegs i)⟩ : Comparison 64) = cmp i) :
    ∃ c', A64.execs (foldMasks n) c = some c' ∧ Frame [.x0] c c' ∧
      c'.get .x0 = Circuit.foldMask (min n 3) cmp := by
  unfold foldMasks Circuit.foldMask
  by_cases hn : 1 ≤ n
  · rw [if_pos hn, if_pos (by omega)]
    have hgt : ∀ i < min n 3, c.get (cmpGtRegs i) = (cmp i).gt := fun i hi => by rw [← h i hi]
    have h0 : ∀ i < 3, cmpGtRegs i ≠ .x0 := by decide
    -- the masks are taken one after another
    have hfold : ∀ m, m ≤ min n 3 - 1 → ∃ c', A64.execs
        (.mov .x0 (.reg (cmpGtRegs 0)) :: (List.range m).map fun i =>
          Instr.bin .and .x0 .x0 (.reg (cmpGtRegs (i + 1)))) c = some c' ∧ Frame [.x0] c c' ∧
        c'.get .x0 = (List.range m).foldl (fun m i => m &&& (cmp (i + 1)).gt) (cmp 0).gt := by
      intro m
      induction m with
      | zero =>
        refine fun _ => ⟨_, rfl, (Frame.refl _ c).set (by simp) _, ?_⟩
        rw [Cpu.get_set_self _ _ (by decide), Cpu.operand_reg, hgt 0 (by omega)]
        rfl
      | succ m ih =>
        intro hm
        obtain ⟨c₁, hc₁, hf₁, hv₁⟩ := ih (by omega)
        refine ⟨c₁.set .x0 (c₁.get .x0 &&& c₁.get (cmpGtRegs (m + 1))), ?_,
          hf₁.set (by simp) _, ?_⟩
        · rw [List.range_succ, List.map_append, ← List.cons_append, A64.execs_append, hc₁]
          rfl
        · rw [Cpu.get_set_self _ _ (by decide), hv₁,
            hf₁.get _ (by simpa using h0 (m + 1) (by omega)), hgt (m + 1) (by omega),
            List.range_succ, List.foldl_append]
          rfl
    exact hfold _ le_rfl
  · rw [if_neg hn, if_neg (by omega)]
    exact ⟨_, rfl, (Frame.refl _ c).set (by simp) _, by simp⟩

/-- The epilogue puts the caller's registers back. -/
theorem expressionEpilogue_exec {c₀ : Cpu} (hmem : c.mem = caller.memory planes S stack)
    (hsp : c.get .sp = caller.layout.cell .stack 0) (hsaved : Saved stack c₀) :
    ∃ c', A64.execs expressionEpilogue c = some c' ∧ c'.mem = c.mem ∧
      c'.get .x0 = c.get .x0 ∧ c'.get .sp = caller.layout.cell .stack 12 ∧
      ∀ i < 12, c'.get (savedReg i) = c₀.get (savedReg i) := by
  have hK : ∀ i < 12, stack i = c₀.get (savedReg i) := hsaved
  rw [expressionEpilogue, execs_pop (j := 0) (by omega) hmem hsp,
    execs_pop (j := 2) (by omega) (by exact hmem) (by simp),
    execs_pop (j := 4) (by omega) (by exact hmem) (by simp),
    execs_pop (j := 6) (by omega) (by exact hmem) (by simp),
    execs_pop (j := 8) (by omega) (by exact hmem) (by simp),
    execs_pop (j := 10) (by omega) (by exact hmem) (by simp)]
  refine ⟨_, rfl, rfl, by simp, by simp, fun i hi => ?_⟩
  rw [← hK i hi]
  interval_cases i <;> simp [savedReg]

/-- **After the second loop** the masks are folded and the caller's registers put back. -/
theorem tail_exec {c₀ : Cpu}
    (h : Remaining caller planes scratch S stack g root ms T final 0 c) (hsaved : Saved stack c₀) :
    ∃ c', A64.execs (foldMasks (collectComparisons g root).length ++ expressionEpilogue) c =
        some c' ∧ c'.mem = caller.memory planes S stack ∧
      c'.get .x0 = Circuit.foldMask (Circuit.compared g root).length final.cmp ∧
      c'.get .sp = caller.layout.cell .stack 12 ∧
      ∀ i < 12, c'.get (savedReg i) = c₀.get (savedReg i) := by
  obtain ⟨s, rfl, hcmp⟩ := h
  have hlen : (Circuit.compared g root).length = min (collectComparisons g root).length 3 := by
    rw [Circuit.compared, List.length_take, Nat.min_comm]
  obtain ⟨d, hd, hframe, hx0⟩ := foldMasks_exec (n := (collectComparisons g root).length)
    fun i hi => hcmp.cmp i (by rw [hlen]; exact hi)
  have hmem := hframe.mem.trans hcmp.running.mem
  obtain ⟨c', hc', hm, hv, hsp, hregs⟩ := expressionEpilogue_exec (c := d) hmem
    ((hframe.get _ (by decide)).trans hcmp.running.sp) hsaved
  refine ⟨c', ?_, hm.trans hmem, ?_, hsp, hregs⟩
  · rw [A64.execs_append, hd]
    exact hc'
  · rw [hv, hx0, hlen]
    rfl

end Phase2

/-! ## The call -/

/-- What a bit-sliced kernel leaves: the mask in `x0`, the sums in the slots, every
other cell of the scratchpad as it was, and the caller's registers. -/
structure Returned (caller : Caller) (planes : Planes) (scratch : Scratch) (g : Graph)
    (root : NodeRef) (ms : NodeMetas) (c c' : Cpu) (S : Scratch) : Prop where
  mem : ∃ stack, c'.mem = caller.memory planes S stack
  x0 : c'.get .x0 =
    Circuit.mask g (inputs g ms planes scratch) root (c.get .x2) (c.get .x3)
  sums : ∀ n ∈ g.adderNodes root, ∀ b < 64, S (slotCell ms n b) =
    sumTable g root (inputs g ms planes scratch) (c.get .x2) (c.get .x3) b n
  rest : ∀ j, (∀ n ∈ g.adderNodes root, ∀ b < 64, j ≠ slotCell ms n b) → S j = scratch j
  sp : c'.get .sp = caller.layout.cell .stack 12
  saved : ∀ i < 12, c'.get (savedReg i) = c.get (savedReg i)

theorem labels_expressionCode (g : Graph) (root : NodeRef) (ms : NodeMetas)
    (konst : NodeRef → Word) : A64.labels (g.expressionCode root ms konst) = [0, 1, 2, 3] := by
  simp [Graph.expressionCode, emitExpression]

/-- The two loops of the kernel and the code around them. -/
theorem twoLoops_expressionCode (g : Graph) (root : NodeRef) (ms : NodeMetas)
    (konst : NodeRef → Word) :
    A64.TwoLoops (g.expressionCode root ms konst) (phase1Entry g ms (g.arithmeticNodes root))
      (A64.loopItems 0 1 [.cmp .x15 (.imm 64)] .hs (phase1Body g ms konst (g.arithmeticNodes root)))
      (phase2Entry (collectComparisons g root).length)
      (A64.loopItems 2 3 [.cmp .x15 (.imm 0)] .lt
        (phase2Body g ms konst (collectComparisons g root)))
      (foldMasks (collectComparisons g root).length ++ expressionEpilogue) .x30 :=
  A64.twoLoops ..

/-- **Running the kernel.**  The stretches of the code one after another, each from
what the one before it left. -/
theorem run_expressionCode (hcall : Callable caller planes g root ms konst)
    (h : Entered caller planes scratch c) :
    ∃ c' S, A64.run (g.expressionCode root ms konst) (Caller.fuel (g.expressionCode root ms konst))
        ⟨0, c⟩ = some (c.get .x30, c') ∧
      Returned caller planes scratch g root ms c c' S := by
  have hnd : (A64.labels (g.expressionCode root ms konst)).Nodup := by
    rw [labels_expressionCode]
    decide
  have hat := twoLoops_expressionCode g root ms konst
  obtain ⟨c₁, stack, hc₁, hsaved, hbit⟩ := phase1Entry_exec hcall h
  have hs₁ := A64.steps_block hat.atEntry hc₁
  obtain ⟨k₂, hk₂, c₂, hs₂, S, hadd⟩ := phase1_leads hcall hnd hat.atFirst c₁ hbit
  obtain ⟨c₃, hc₃, hrem⟩ := phase2Entry_exec hadd
  have hs₃ := A64.steps_block hat.atBetween hc₃
  obtain ⟨k₄, hk₄, c₄, hs₄, hrem₄⟩ := phase2_leads hcall (filled_of_adding hcall hadd) hnd
    hat.atSecond c₃ hrem
  obtain ⟨c₅, hc₅, hm₅, hv₅, hsp₅, hsaved₅⟩ := tail_exec hrem₄ hsaved
  have hs₅ := A64.steps_block hat.atTail hc₅
  have hsteps := (((hs₁.trans hs₂).trans hs₃).trans hs₄).trans hs₅
  refine ⟨c₅, S, ?_, ⟨stack, hm₅⟩, hv₅, fun n hn b hb => hadd.done n hn b hb, hadd.rest, hsp₅,
    hsaved₅⟩
  -- no loop runs more than 64 times, so the fuel is enough
  rw [← show c₅.get .x30 = c.get .x30 from hsaved₅ 11 (by omega)]
  refine A64.run_of_steps_ret hsteps hat.atRet ?_
  rw [Caller.fuel, hat.length]
  omega

/-- The machine at the entry of a call. -/
theorem entered_enter (caller : Caller) (planes : Planes) (scratch : Scratch) :
    Entered caller planes scratch
      (caller.enter (caller.layout.cell .planesArray 0) planes scratch) where
  mem := caller.enter_mem ..
  sp := caller.enter_sp ..
  x0 := caller.enter_x0 ..
  x1 := caller.enter_x1 ..

/-- **A call of the kernel**: it returns the mask of the circuit, entered with what
the caller has in `x2` and `x3`; the slots of the adders hold their sums and no other
cell of the scratchpad is changed. -/
theorem callExpr_returned (scratch : Scratch) (hcall : Callable caller planes g root ms konst) :
    ∃ S, caller.callExpr (g.expressionCode root ms konst) planes scratch =
        some (Circuit.mask g (inputs g ms planes scratch) root (caller.regs .x2) (caller.regs .x3),
          S) ∧
      (∀ n ∈ g.adderNodes root, ∀ b < 64, S (slotCell ms n b) =
        sumTable g root (inputs g ms planes scratch) (caller.regs .x2) (caller.regs .x3) b n) ∧
      ∀ j < 512, (∀ n ∈ g.adderNodes root, ∀ b < 64, j ≠ slotCell ms n b) → S j = scratch j := by
  obtain ⟨c', S, hrun, hret⟩ := run_expressionCode hcall (entered_enter caller planes scratch)
  obtain ⟨stack, hmem⟩ := hret.mem
  have hx2 := caller.enter_get (caller.layout.cell .planesArray 0) planes scratch (r := .x2)
    (by decide) (by decide) (by decide) (by decide)
  have hx3 := caller.enter_get (caller.layout.cell .planesArray 0) planes scratch (r := .x3)
    (by decide) (by decide) (by decide) (by decide)
  have hcell : ∀ j < 512, (c'.mem (caller.layout.cell .scratch j)).getD 0 = S j := fun j hj => by
    rw [hmem, caller.holds_memory planes S stack .scratch j (by rw [caller.len_eq]; exact hj),
      Option.getD_some]
    rfl
  refine ⟨fun j => (c'.mem (caller.layout.cell .scratch j)).getD 0, ?_, ?_, ?_⟩
  · rw [Caller.callExpr, hrun, Option.map_some, hret.x0, hx2, hx3]
  · intro n hn b hb
    have hlt := hcall.allocated.slotCell_lt hcall.arithmetic_le (adderNodes_subset hn) hb
    refine (hcell _ hlt).trans ?_
    rw [hret.sums n hn b hb, hx2, hx3]
  · intro j hj hfree
    exact (hcell j hj).trans (hret.rest j hfree)

/-- The mask of a call, and what it leaves alone. -/
theorem callExpr_expressionCode (scratch : Scratch)
    (hcall : Callable caller planes g root ms konst) :
    ∃ S, caller.callExpr (g.expressionCode root ms konst) planes scratch =
        some (Circuit.mask g (inputs g ms planes scratch) root (caller.regs .x2) (caller.regs .x3),
          S) ∧
      ∀ j < 512, (∀ n ∈ g.adderNodes root, ∀ b < 64, j ≠ slotCell ms n b) → S j = scratch j := by
  obtain ⟨S, hrun, -, hrest⟩ := callExpr_returned scratch hcall
  exact ⟨S, hrun, hrest⟩

end Jit
end ApexEngine
