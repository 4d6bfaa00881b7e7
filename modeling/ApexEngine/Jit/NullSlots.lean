import ApexEngine.Jit.ScalarFrame

/-!
# Null slots in the scalar kernel

The scalar kernel evaluates every listed node on every row, the root's own operands and
whatever else the pointers of its nodes lead to.  For each field it loads the pointer of the
field's slot and then the word of the row behind it.  A slot that was never bound has the null
pointer in it, and on the first row this is a load at address zero.

So the kernel faults as soon as one listed field has a null slot, wherever it stands in the
list (`callExpr_scalarCode_null`).  The nodes before it may fault for a reason of their own; if
they do not, they store into the scratchpad only, and the pointers are where they were
(`looping_scalarBlocks`).
-/

namespace ApexEngine
namespace Jit

open A64 (Word Reg Cpu Instr Item)

section Null

variable {caller : Caller} {planes : Planes} {S stack : ℕ → Word} {g : Graph} {root n : NodeRef}
  {ms : NodeMetas} {k : ℕ} {mask : Word} {c d : Cpu}

/-! ## What the nodes before leave -/

/-- Code without stores that writes operand registers only. -/
def OperandCode (is : List Instr) : Prop :=
  ∀ j ∈ is, j.isStore = false ∧ ∀ r ∈ j.targets, r ∈ [Reg.x2, .x3, .x4, .x5]

theorem OperandCode.append {is js : List Instr} (hi : OperandCode is) (hj : OperandCode js) :
    OperandCode (is ++ js) := fun j hmem =>
  (List.mem_append.mp hmem).elim (hi j) (hj j)

/-- The row loop is where it was. -/
theorem Looping.of_execs (h : Looping caller planes S stack k mask c) {is : List Instr}
    (his : OperandCode is) (hd : A64.execs is c = some d) :
    Looping caller planes S stack k mask d := by
  have hget : ∀ r, r ∉ [Reg.x2, .x3, .x4, .x5] → d.get r = c.get r := fun r hr =>
    A64.execs_get hd fun i hi ht => hr ((his i hi).2 r ht)
  have hmem : d.mem = c.mem := A64.execs_mem hd fun i hi => (his i hi).1
  exact ⟨hmem.trans h.mem, (hget _ (by decide)).trans h.x0, (hget _ (by decide)).trans h.x1,
    (hget _ (by decide)).trans h.x19, (hget _ (by decide)).trans h.x20,
    (hget _ (by decide)).trans h.sp⟩

/-- The code of an operand is such code. -/
theorem operandCode_getOperand (allNodes : List NodeRef) (i : ℕ) (operand : Option NodeRef)
    {out : Reg} (hout : out ∈ [Reg.x2, .x3, .x5]) :
    OperandCode (getOperand g ms allNodes i operand out) := by
  intro j hj
  have htargets := targets_getOperand allNodes operand out j hj
  refine ⟨?_, fun r hr => ?_⟩
  · unfold getOperand at hj
    split at hj
    · exact absurd hj List.not_mem_nil
    · split at hj <;> simp only [emitMovImm64, List.mem_cons, List.not_mem_nil, or_false] at hj
      · rcases hj with rfl | rfl <;> rfl
      · rcases hj with rfl | rfl | rfl | rfl <;> rfl
      · rw [hj]
        rfl
  · have hsub : [Reg.x2, .x3, .x5] ⊆ [Reg.x2, .x3, .x4, .x5] := by decide
    rcases List.mem_cons.mp (htargets r hr) with rfl | hr
    · decide
    · rw [List.mem_singleton.mp hr]
      exact hsub hout

/-- So is the code of an operation. -/
theorem operandCode_scalarOp (allNodes : List NodeRef) (i : ℕ) (n : NodeRef) :
    OperandCode (scalarOp g ms allNodes i n) := by
  unfold scalarOp
  split
  · exact operandCode_getOperand allNodes i (some n) (by decide)
  · exact operandCode_getOperand allNodes i (some n) (by decide)
  all_goals simp [OperandCode, Instr.isStore, Instr.targets]

/-- **A node that runs through** writes its cell and nothing else. -/
theorem looping_scalarBlock (h : Looping caller planes S stack k mask c) (allNodes : List NodeRef)
    {i : ℕ} (hi : i < 512) (hd : A64.execs (scalarBlock g ms allNodes n i) c = some d) :
    ∃ S', Looping caller planes S' stack k mask d := by
  have hcode : OperandCode (getOperand g ms allNodes i (g.node n).left .x2 ++
      getOperand g ms allNodes i (g.node n).right .x3 ++ scalarOp g ms allNodes i n) :=
    ((operandCode_getOperand allNodes i _ (by decide)).append
      (operandCode_getOperand allNodes i _ (by decide))).append (operandCode_scalarOp allNodes i n)
  rw [scalarBlock, A64.execs_append] at hd
  obtain ⟨e, he, hstore⟩ := Option.bind_eq_some_iff.mp hd
  have hl := h.of_execs hcode he
  rw [A64.execs_str _ _ (hl.store_cell hi)] at hstore
  obtain rfl := Option.some.inj hstore
  exact ⟨_, rfl, hl.x0, hl.x1, hl.x19, hl.x20, hl.sp⟩

/-- When **the code of some nodes** has run, the kernel is still in its loop. -/
theorem looping_scalarBlocks (h : Looping caller planes S stack k mask c) (allNodes : List NodeRef)
    {l : List (NodeRef × ℕ)} (hl : ∀ e ∈ l, e.2 < 512)
    (hd : A64.execs (l.flatMap fun e => scalarBlock g ms allNodes e.1 e.2) c = some d) :
    ∃ S', Looping caller planes S' stack k mask d := by
  induction l generalizing S c with
  | nil =>
    obtain rfl := Option.some.inj hd
    exact ⟨S, h⟩
  | cons e l ih =>
    rw [List.flatMap_cons, A64.execs_append] at hd
    obtain ⟨c₁, hc₁, hrest⟩ := Option.bind_eq_some_iff.mp hd
    obtain ⟨S₁, h₁⟩ := looping_scalarBlock h allNodes (hl e List.mem_cons_self) hc₁
    exact ih h₁ (fun e he => hl e (List.mem_cons_of_mem _ he)) hrest

/-! ## The node with the null slot -/

/-- Loading a field whose slot is null faults: the row is read at an address in the first
page. -/
theorem getField_null (h : Looping caller planes S stack 0 mask c) {i : ℕ} (hi : i < 8)
    (hnull : planes i = none) (out : Reg) (is : List Instr) :
    A64.execs (.ldr .x4 (.offset .x0 (BitVec.ofNat 64 (8 * i))) ::
      .ldr out (.index .x4 .x20 3) :: is) c = none := by
  have hptr : c.mem.load ((A64.Addr.offset .x0 (BitVec.ofNat 64 (8 * i))).resolve c).1 = some 0 := by
    have hcell := caller.layout.cell_add .planesArray 0 i
    rw [Nat.zero_add] at hcell
    rw [A64.Addr.resolve, h.x0, hcell, h.mem]
    exact caller.load_planesArray_none _ _ _ hi hnull
  rw [A64.execs_ldr _ _ hptr]
  set d := c.set .x4 0 with hd
  have haddr : ((A64.Addr.index .x4 .x20 3).resolve d).1 = 0 := by
    rw [A64.Addr.resolve, hd, Cpu.get_set_self _ _ (by decide),
      Cpu.get_set_of_ne _ _ (by decide), h.x20]
    rfl
  have hword : d.mem.load ((A64.Addr.index .x4 .x20 3).resolve d).1 = none := by
    rw [haddr, A64.Memory.load, hd, Cpu.mem_set, h.mem]
    split
    · exact caller.memory_page _ _ _ (by decide)
    · rfl
  show A64.execs (.ldr out (.index .x4 .x20 3) :: is) d = none
  rw [A64.execs_cons]
  show Option.bind (Option.map _ (d.mem.load ((A64.Addr.index .x4 .x20 3).resolve d).1)) _ = none
  rw [hword]
  rfl

/-- A block that comes after code that runs through or faults. -/
theorem execs_append_none {is js : List Instr}
    (h : ∀ d, A64.execs is c = some d → A64.execs js d = none) : A64.execs (is ++ js) c = none := by
  rw [A64.execs_append]
  cases hd : A64.execs is c with
  | none => rfl
  | some d => exact h d hd

/-- **The body of the loop faults** on the first row, when a listed field has a null slot. -/
theorem execs_scalarBody_null (h : Looping caller planes S stack 0 mask c)
    (hnodes : (g.listing root).length ≤ 512) (hn : n ∈ g.listing root) (hk : g.kind n = .load)
    {i : ℕ} (hidx : (ms n).fieldIdx = (i : ℕ)) (hi : i < 8) (hnull : planes i = none) :
    A64.execs (scalarBody g ms (g.listing root)) c = none := by
  obtain ⟨p, q, hsplit⟩ := List.append_of_mem hn
  have hlen := congrArg List.length hsplit
  rw [List.length_append, List.length_cons] at hlen
  rw [scalarBody]
  generalize hnodes' : g.listing root = allNodes
  rw [hnodes'] at hsplit hlen hnodes
  have hblocks : allNodes.zipIdx.flatMap (fun e => scalarBlock g ms allNodes e.1 e.2) =
      (p.zipIdx.flatMap fun e => scalarBlock g ms allNodes e.1 e.2) ++
        (scalarBlock g ms allNodes n p.length ++
          (q.zipIdx (p.length + 1)).flatMap fun e => scalarBlock g ms allNodes e.1 e.2) := by
    conv_lhs => arg 2; rw [hsplit]
    rw [List.zipIdx_append, List.flatMap_append, List.zipIdx_cons, List.flatMap_cons]
    simp
  rw [hblocks, List.append_assoc, scalarBlock]
  refine execs_append_none fun d hd => ?_
  obtain ⟨S', hl⟩ := looping_scalarBlocks h allNodes (fun e he => by
    have := List.snd_lt_of_mem_zipIdx he
    omega) hd
  simp only [List.append_assoc]
  -- the operands of the field, which only left-over pointers give it
  refine execs_append_none fun d₁ hd₁ => execs_append_none fun d₂ hd₂ => ?_
  have hl₁ := hl.of_execs (operandCode_getOperand allNodes p.length _ (by decide)) hd₁
  have hl₂ := hl₁.of_execs (operandCode_getOperand allNodes p.length _ (by decide)) hd₂
  simp only [scalarOp, hk, getOperand, hidx, field_offset, List.cons_append]
  exact getField_null hl₂ hi hnull .x5 _

/-- **A kernel that is handed a null plane faults**, when its expression has a field of the
slot that is not bound. -/
theorem callExpr_scalarCode_null (caller : Caller) (scratch : Scratch)
    (hnodes : (g.listing root).length ≤ 512) (hn : n ∈ g.listing root) (hk : g.kind n = .load)
    {i : ℕ} (hidx : (ms n).fieldIdx = (i : ℕ)) (hi : i < 8) (hnull : planes i = none) :
    caller.callExpr (g.scalarCode root ms) planes scratch = none := by
  have hat := oneLoop_scalarCode g root ms
  obtain ⟨c₁, stack', hc₁, -, S, hrow⟩ := scalarPrologue_exec g root ms
    (caller.enter_mem (caller.layout.cell .planesArray 0) planes scratch) (caller.enter_sp ..)
    (caller.enter_x0 ..) (caller.enter_x1 ..) fun _ => 0
  have hs₁ := A64.steps_block hat.atEntry hc₁
  have hlooping := hrow.looping.with_flags
    (A64.Flags.ofSub (c₁.get .x20) (BitVec.ofNat 64 64))
  have hstay : A64.Cond.hs.holds (A64.Flags.ofSub (c₁.get .x20) (BitVec.ofNat 64 64)) = false := by
    rw [hrow.looping.x20, hs_ofNat (by omega) (by omega), decide_eq_false (by omega)]
  rw [Caller.callExpr, A64.run_eq_none_of_body hs₁ hat.atLoop rfl hstay]
  · rfl
  · exact execs_scalarBody_null hlooping hnodes hn hk hidx hi hnull

end Null
end Jit
end ApexEngine
