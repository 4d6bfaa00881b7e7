import ApexEngine.Jit.BuilderRuns
import ApexEngine.Jit.ScalarFrame
import ApexEngine.Jit.SlicedFrame

/-!
# The frame law

Both compilers, on every expression of a builder's pool: the kernel comes back, with the
registers a function must preserve and the stack pointer as they were, and what it has written
on the way is its own frame and the words of the scratchpad that were given to its nodes
(`kernel_frame`).

The pool bounds the nodes of an expression, so the words of a scalar kernel are within the
scratchpad; the check of the slots bounds those of a bit-sliced one.

A caller with its arrays laid out as in `Caller` keeps the promises of a kernel's signature
(`enters_enter`), so the law holds for the calls of the engine.
-/

namespace ApexEngine
namespace Jit

open A64 (Word Reg Cpu Item InFrame)

/-- **The frame law.**  For every expression that was built in a run of builder calls, in
every machine that a kernel may be entered with: the kernel returns to its caller, the stack
pointer and the callee-saved registers are as they were, and it writes to nothing but its
frame and the words of the scratchpad given to its nodes, which are among the 512 there are.
So it writes to no planes.

A kernel may be entered when its frame and its scratchpad are memory and do not overlap, and
when the plane array has for every field a pointer to 64 words that can be read, outside of
both; the constants in its code point to such words too (`Enters`).  Registers, flags and all
other memory are arbitrary. -/
theorem kernel_frame {calls : List BuilderCall} (hrun : Session.Run calls) {root : NodeRef}
    (hroot : some root ∈ (Session.run calls).results) {g : Graph}
    (hg : g = (Session.run calls).pool.graph (Session.wellFormed_run hrun).ordered)
    {mode : ExecutionMode} {heap : ℕ → Word} {st st' : CompileState} {code : List Item}
    (hcompile : compile mode heap g (some root) st = (some code, st')) {c : Cpu}
    (hc : Enters mode g root st'.pool c) :
    (∃ d, A64.run code (Caller.fuel code) ⟨0, c⟩ = some (c.get .x30, d) ∧
      ∀ r ∈ .sp :: calleeSaved, d.get r = c.get r) ∧
    (∀ a, .write a ∈ A64.trace code (Caller.fuel code) ⟨0, c⟩ →
      InFrame (c.get .sp) (frameWords mode) a ∨
        ∃ j < 512, GivenWord mode g root st'.metas j ∧ a = scratchWord c j) ∧
    (∀ i < (g.fieldNames root).length, ∀ p, c.mem.load (planesSlot c i) = some p →
      ∀ b < 64, .write (planeWord p b) ∉ A64.trace code (Caller.fuel code) ⟨0, c⟩) ∧
    (mode = .bitSliced → ∀ n ∈ g.constNodes root, ∀ q,
      ((g.node n).constValue, q) ∈ st'.pool →
      ∀ b < 64, .write (planeWord q b) ∉ A64.trace code (Caller.fuel code) ⟨0, c⟩) := by
  have hwf := Session.wellFormed_run hrun
  have hnodes : (g.listing root).length ≤ 512 := by
    rw [hg]
    exact (NodePool.length_listing_le hwf.ordered
      ((hwf.taken root hroot).trans_le (Session.nextIdx_le calls))).trans (by decide)
  have hkeeps : KeepsFrame mode g root st'.metas code c := by
    cases mode with
    | bitSliced =>
      obtain ⟨konst, rfl, halloc⟩ := allocated_of_compile hcompile
      exact keepsFrame_expressionCode hc halloc
        (limits_of_compileExpression heap g root st hcompile).2
    | scalar =>
      have hidx := fun n hn => fieldIdx_of_compile (n := n) hcompile hn
      rw [compile_scalar] at hcompile
      obtain ⟨hcode, rfl⟩ := Prod.mk.inj hcompile
      rw [← Option.some.inj hcode]
      exact keepsFrame_scalarCode hc hidx hnodes
  have hplanes : ∀ p, PlanesAt mode c p → ∀ b < 64,
      .write (planeWord p b) ∉ A64.trace code (Caller.fuel code) ⟨0, c⟩ := by
    intro p hp b hb hmem
    rcases hkeeps.writes _ hmem with hframe | ⟨j, hj, -, heq⟩
    · exact (hp b hb).2.1 hframe
    · exact (hp b hb).2.2 j hj heq
  refine ⟨hkeeps.returns, hkeeps.writes, fun i hi p hp => ?_, fun hmode n hn q hq => ?_⟩
  · obtain ⟨-, p', hp', hat⟩ := hc.field i hi
    obtain rfl := Option.some.inj (hp.symm.trans hp')
    exact hplanes p hat
  · exact hplanes q (hc.konst hmode n hn q hq)

/-! ## Entering as a caller does -/

section Caller

variable {mode : ExecutionMode} {g : Graph} {root : NodeRef} {pool : ConstPool} {caller : Caller}
  {planes : Planes} {scratch : Scratch}

/-- The frame is at the top of the stack. -/
theorem below_cell {i : ℕ} (hi : i ≤ 12) :
    A64.below (caller.layout.cell .stack 12) i = caller.layout.cell .stack (12 - i) := by
  have hbelow := A64.below_add (caller.layout.cell .stack 12) 0 i
  have hcell := caller.layout.cell_add .stack (12 - i) i
  rw [A64.below_zero, Nat.zero_add] at hbelow
  rw [Nat.sub_add_cancel hi] at hcell
  exact (BitVec.add_left_inj _).mp (hbelow.trans hcell.symm)

theorem frameWords_le (mode : ExecutionMode) : frameWords mode ≤ 12 := by
  cases mode <;> decide

/-- A word of the frame is a word of the stack. -/
theorem cell_of_inFrame {a arg : Word}
    (h : InFrame ((caller.enter arg planes scratch).get .sp) (frameWords mode) a) :
    ∃ j < 12, a = caller.layout.cell .stack j := by
  obtain ⟨i, h1, hi, rfl⟩ := h
  have hle := frameWords_le mode
  rw [Caller.enter_sp, below_cell (hi.trans hle)]
  exact ⟨12 - i, by omega, rfl⟩

/-- The words of the scratchpad are its cells. -/
theorem scratchWord_enter (arg : Word) (j : ℕ) :
    scratchWord (caller.enter arg planes scratch) j = caller.layout.cell .scratch j := by
  rw [scratchWord, Caller.enter_x1, A64.Layout.cell_add, Nat.zero_add]

/-- Cells of different arrays are different. -/
theorem cell_ne_cell {s t : Seg caller.pool.length} (hst : s ≠ t) {i j : ℕ} (hi : i < s.size)
    (hj : j < t.size) : caller.layout.cell s i ≠ caller.layout.cell t j := by
  rw [← caller.len_eq] at hi hj
  exact fun h => hst (A64.Layout.cell_inj hi hj h).1

/-- The other arrays are elsewhere. -/
theorem elsewhere_cell {s : Seg caller.pool.length} (hstack : s ≠ .stack) (hscratch : s ≠ .scratch)
    {i : ℕ} (hi : i < s.size) (arg : Word) :
    Elsewhere mode (caller.enter arg planes scratch) (caller.layout.cell s i) := by
  refine ⟨fun hframe => ?_, fun j hj heq => ?_⟩
  · obtain ⟨j, hj, heq⟩ := cell_of_inFrame hframe
    exact cell_ne_cell (t := .stack) hstack hi hj heq
  · rw [scratchWord_enter] at heq
    exact cell_ne_cell (t := .scratch) hscratch hi hj heq

/-- An array of 64 words that can be read, other than the stack and the scratchpad. -/
theorem planesAt_cell {s : Seg caller.pool.length} (hstack : s ≠ .stack) (hscratch : s ≠ .scratch)
    (hsize : s.size = 64) (arg : Word) :
    PlanesAt mode (caller.enter arg planes scratch) (caller.layout.cell s 0) := by
  intro b hb
  have hcell : planeWord (caller.layout.cell s 0) b = caller.layout.cell s b := by
    rw [planeWord, A64.Layout.cell_add, Nat.zero_add]
  rw [hcell, Caller.enter_mem, caller.load_cell _ _ _ (hsize.symm ▸ hb)]
  exact ⟨rfl, elsewhere_cell hstack hscratch (hsize.symm ▸ hb) arg⟩

/-- **A caller keeps the promises**, if it has planes for every field and the constants of the
thread are where they were allocated. -/
theorem enters_enter (hpool : pool ⊆ caller.pool) (hfields : (g.fieldNames root).length ≤ 8)
    (hplanes : ∀ i < (g.fieldNames root).length, (planes i).isSome) :
    Enters mode g root pool
      (caller.enter (caller.layout.cell .planesArray 0) planes scratch) where
  frame i h1 hi := by
    have hle := frameWords_le mode
    rw [Caller.enter_sp, below_cell (hi.trans hle), Caller.enter_mem,
      caller.load_stack _ _ _ (by omega)]
    rfl
  scratch j hj := by
    rw [scratchWord_enter, Caller.enter_mem, caller.load_scratch _ _ _ hj]
    rfl
  apart j hj hframe := by
    obtain ⟨i, hi, heq⟩ := cell_of_inFrame hframe
    rw [scratchWord_enter] at heq
    exact cell_ne_cell (s := .scratch) (t := .stack) (by simp) hj hi heq
  field i hi := by
    obtain ⟨p, hp⟩ := Option.isSome_iff_exists.mp (hplanes i hi)
    have hslot : planesSlot (caller.enter (caller.layout.cell .planesArray 0) planes scratch) i =
        caller.layout.cell .planesArray i := by
      rw [planesSlot, Caller.enter_x0, A64.Layout.cell_add, Nat.zero_add]
    rw [hslot, Caller.enter_mem, caller.load_planesArray _ _ _ (hi.trans_le hfields) hp]
    exact ⟨elsewhere_cell (s := .planesArray) (by simp) (by simp) (hi.trans_le hfields) _, _, rfl,
      planesAt_cell (by simp) (by simp) rfl _⟩
  konst _ n _ q hq := by
    obtain ⟨k, hk⟩ := List.get_of_mem (hpool hq)
    have haddr : caller.layout.cell (.konst k) 0 = q :=
      (caller.konst_addr k).trans (congrArg Prod.snd hk)
    rw [← haddr]
    exact planesAt_cell (by simp) (by simp) rfl _

end Caller

/-- The bit-sliced kernel of `GT(Load("a"), Const(5))`, entered with planes for `a`. -/
theorem kernel_frame_threshold :
    ∃ code st', compile .bitSliced standardHeap (thresholdGraph (.ofString [97]) 5) (some 2)
        ⟨fun _ => {}, []⟩ = (some code, st') ∧
      ∀ c, c = (Caller.standard [5] (by decide)).enter
          ((Caller.standard [5] (by decide)).layout.cell .planesArray 0)
          (fun _ => some (BitPlane.broadcast (7 : Word))) (fun _ => 0) →
        ∃ d, A64.run code (Caller.fuel code) ⟨0, c⟩ = some (c.get .x30, d) ∧
          ∀ r ∈ .sp :: calleeSaved, d.get r = c.get r := by
  obtain ⟨code, st', hcompile⟩ : ∃ code st', compile .bitSliced standardHeap
      (thresholdGraph (.ofString [97]) 5) (some 2) ⟨fun _ => {}, []⟩ = (some code, st') :=
    ⟨_, _, rfl⟩
  have hst : (compile .bitSliced standardHeap (thresholdGraph (.ofString [97]) 5) (some 2)
      ⟨fun _ => {}, []⟩).2 = st' := by rw [hcompile]
  have hpool : st'.pool ⊆ (Caller.standard [5] (by decide)).pool := by
    rw [← hst]
    exact List.Subset.refl [(5, standardHeap 0)]
  have hrun : Session.Run [.load (.ofString [97]), .const 5, .gt (some 0) (some 1)] := by
    simp only [Session.Run, Runs.Along]
    decide
  refine ⟨code, st', hcompile, ?_⟩
  rintro c rfl
  exact (kernel_frame (g := thresholdGraph (.ofString [97]) 5) hrun (by decide) rfl hcompile
    (enters_enter hpool (by decide) fun _ _ => rfl)).1

end Jit
end ApexEngine
