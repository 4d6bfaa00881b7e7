import ApexEngine.Jit.PlaneReads
import ApexEngine.Machine.Saves

/-!
# The frame law of kernels

Whatever its expression computes, a kernel is a good citizen: it returns, it gives the
callee-saved registers and the stack pointer back, and it writes only to its frame and to the
cells of the scratchpad that were given to its nodes.

None of this depends on the values in registers and memory, so the machine a kernel is
entered with is arbitrary here, except for what its signature promises (`Enters`): the frame
and the scratchpad can be written, the slots of the fields point to planes that can be read,
and these are different objects.  The planes of two fields may overlap or be the same.

The proof follows the text of the code.  While a kernel is inside its frame
(`Inside`) a few registers are held: the stack pointer, the pointers to the planes and to the
scratchpad, and the counter of the loop.  Memory keeps what these lead to (`Sound`), because
all that is written then is cells of the scratchpad.
-/

namespace ApexEngine
namespace Jit

open A64 (Word Reg Cpu Instr Item Writing LeadsWriting Kept InFrame Pushed)

/-! ## Entering a kernel -/

/-- The pairs of registers a kernel saves, in the order it pushes them. -/
def savedPairs : ExecutionMode → List (Reg × Reg)
  | .bitSliced =>
      [(.x29, .x30), (.x19, .x20), (.x21, .x22), (.x23, .x24), (.x25, .x26), (.x27, .x28)]
  | .scalar => [(.x29, .x30), (.x19, .x20)]

/-- The number of words a kernel pushes. -/
def frameWords (mode : ExecutionMode) : ℕ := 2 * (savedPairs mode).length

/-- The registers a function must preserve. -/
def calleeSaved : List Reg :=
  [.x19, .x20, .x21, .x22, .x23, .x24, .x25, .x26, .x27, .x28, .x29, .x30]

/-- A word of the scratchpad a kernel is entered with. -/
def scratchWord (c : Cpu) (j : ℕ) : Word := c.get .x1 + BitVec.ofNat 64 (8 * j)

/-- A slot of the array of planes a kernel is entered with. -/
def planesSlot (c : Cpu) (i : ℕ) : Word := c.get .x0 + BitVec.ofNat 64 (8 * i)

/-- A word of planes. -/
def planeWord (p : Word) (b : ℕ) : Word := p + BitVec.ofNat 64 (8 * b)

/-- An address outside the frame and the scratchpad. -/
def Elsewhere (mode : ExecutionMode) (c : Cpu) (a : Word) : Prop :=
  ¬ InFrame (c.get .sp) (frameWords mode) a ∧ ∀ j < 512, a ≠ scratchWord c j

/-- Planes that can be read, outside the frame and the scratchpad. -/
def PlanesAt (mode : ExecutionMode) (c : Cpu) (p : Word) : Prop :=
  ∀ b < 64, (c.mem.load (planeWord p b)).isSome ∧ Elsewhere mode c (planeWord p b)

/-- What a kernel is promised: a stack with room for its frame, a scratchpad of 512 words,
and planes for the fields of its expression and for the constants in its code. -/
structure Enters (mode : ExecutionMode) (g : Graph) (root : NodeRef) (pool : ConstPool)
    (c : Cpu) : Prop where
  frame : ∀ i, 1 ≤ i → i ≤ frameWords mode → (c.mem.load (A64.below (c.get .sp) i)).isSome
  scratch : ∀ j < 512, (c.mem.load (scratchWord c j)).isSome
  apart : ∀ j < 512, ¬ InFrame (c.get .sp) (frameWords mode) (scratchWord c j)
  field : ∀ i < (g.fieldNames root).length, Elsewhere mode c (planesSlot c i) ∧
    ∃ p, c.mem.load (planesSlot c i) = some p ∧ PlanesAt mode c p
  konst : mode = .bitSliced → ∀ n ∈ g.constNodes root, ∀ q,
    ((g.node n).constValue, q) ∈ pool → PlanesAt mode c q

/-- What memory keeps while a kernel that was entered with `c₀` runs. -/
structure Sound (mode : ExecutionMode) (g : Graph) (root : NodeRef) (pool : ConstPool)
    (c₀ : Cpu) (m : A64.Memory) : Prop where
  field : ∀ i < (g.fieldNames root).length, ∃ p, m.load (planesSlot c₀ i) = some p ∧
    ∀ b < 64, (m.load (planeWord p b)).isSome
  konst : mode = .bitSliced → ∀ n ∈ g.constNodes root, ∀ q,
    ((g.node n).constValue, q) ∈ pool → ∀ b < 64, (m.load (planeWord q b)).isSome
  scratch : ∀ j < 512, (m.load (scratchWord c₀ j)).isSome
  saved : A64.Saved (c₀.get .sp) (savedPairs mode) c₀ m

section Memory

variable {mode : ExecutionMode} {g : Graph} {root : NodeRef} {pool : ConstPool} {c₀ c : Cpu}
  {m m' : A64.Memory}

/-- When the registers are pushed memory is as it is to be kept. -/
theorem Sound.of_pushed (hc : Enters mode g root pool c₀)
    (h : Pushed (frameWords mode) c₀ (savedPairs mode) c) : Sound mode g root pool c₀ c.mem where
  field i hi := by
    obtain ⟨helse, p, hp, hplanes⟩ := hc.field i hi
    refine ⟨p, (h.kept.load_eq helse.1).trans hp, fun b hb => ?_⟩
    exact h.kept.load_isSome (hplanes b hb).1
  konst hmode n hn q hq b hb := h.kept.load_isSome (hc.konst hmode n hn q hq b hb).1
  scratch j hj := h.kept.load_isSome (hc.scratch j hj)
  saved := h.saved

/-- **Writing to the scratchpad keeps memory sound.** -/
theorem Sound.kept (hc : Enters mode g root pool c₀) (h : Sound mode g root pool c₀ m)
    {W : Word → Prop} (hW : ∀ a, W a → ∃ j < 512, a = scratchWord c₀ j) (hk : Kept W m m') :
    Sound mode g root pool c₀ m' where
  field i hi := by
    obtain ⟨p, hp, hplanes⟩ := h.field i hi
    refine ⟨p, (hk.load_eq fun hmem => ?_).trans hp, fun b hb => hk.load_isSome (hplanes b hb)⟩
    obtain ⟨j, hj, heq⟩ := hW _ hmem
    exact (hc.field i hi).1.2 j hj heq
  konst hmode n hn q hq b hb := hk.load_isSome (h.konst hmode n hn q hq b hb)
  scratch j hj := hk.load_isSome (h.scratch j hj)
  saved j p hp := by
    have hlen : j < (savedPairs mode).length := (List.getElem?_eq_some_iff.mp hp).1
    have hframe : ∀ i, 1 ≤ i → i ≤ frameWords mode → ¬ W (A64.below (c₀.get .sp) i) := by
      intro i h1 hi hmem
      obtain ⟨j, hj, heq⟩ := hW _ hmem
      exact hc.apart j hj ⟨i, h1, hi, heq.symm⟩
    obtain ⟨hfst, hsnd⟩ := h.saved j p hp
    unfold frameWords at hframe
    exact ⟨(hk.load_eq (hframe _ (by omega) (by omega))).trans hfst,
      (hk.load_eq (hframe _ (by omega) (by omega))).trans hsnd⟩

end Memory

/-! ## Inside the frame -/

/-- The register with the scratchpad, in the loops. -/
def scratchReg : ExecutionMode → Reg
  | .bitSliced => .x20
  | .scalar => .x1

/-- The register that counts the iterations. -/
def counterReg : ExecutionMode → Reg
  | .bitSliced => .x15
  | .scalar => .x20

/-- The registers that the body of a loop leaves alone. -/
def heldRegs (mode : ExecutionMode) : List Reg :=
  .sp :: planesReg mode :: scratchReg mode :: counterReg mode ::
    calleeSaved.filter (· ∉ A64.registers (savedPairs mode))

/-- A kernel entered with `c₀`, inside its frame, with its counter at `count`. -/
structure Inside (mode : ExecutionMode) (g : Graph) (root : NodeRef) (pool : ConstPool) (c₀ : Cpu)
    (count : Word) (c : Cpu) : Prop where
  sp : c.get .sp = A64.below (c₀.get .sp) (frameWords mode)
  planes : c.get (planesReg mode) = c₀.get .x0
  scratch : c.get (scratchReg mode) = c₀.get .x1
  counter : c.get (counterReg mode) = count
  others : ∀ r ∈ calleeSaved, r ∉ A64.registers (savedPairs mode) → c.get r = c₀.get r
  sound : Sound mode g root pool c₀ c.mem

/-- The words of the scratchpad that are given to the nodes of an expression. -/
def GivenWord (mode : ExecutionMode) (g : Graph) (root : NodeRef) (ms : NodeMetas) (j : ℕ) : Prop :=
  match mode with
  | .bitSliced => ∃ n ∈ g.arithmeticNodes root, ∃ b < 64, j = slotCell ms n b
  | .scalar => j < (g.listing root).length

/-- The addresses a kernel writes to in its loops. -/
def GivenAt (mode : ExecutionMode) (g : Graph) (root : NodeRef) (ms : NodeMetas) (c₀ : Cpu)
    (a : Word) : Prop :=
  ∃ j < 512, GivenWord mode g root ms j ∧ a = scratchWord c₀ j

/-- A block that leaves the held registers alone. -/
def Spares (mode : ExecutionMode) (is : List Instr) : Prop :=
  ∀ i ∈ is, ∀ r ∈ heldRegs mode, r ∉ i.targets

/-- A block that writes no other register than temporaries. -/
theorem spares_of_targets {mode : ExecutionMode} {is : List Instr} {rs : List Reg}
    (htargets : ∀ i ∈ is, ∀ r ∈ i.targets, r ∈ rs) (hrs : ∀ r ∈ rs, r ∉ heldRegs mode) :
    Spares mode is :=
  fun i hi r hr hmem => hrs r (htargets i hi r hmem) hr

section Loop

variable {mode : ExecutionMode} {g : Graph} {root : NodeRef} {pool : ConstPool} {ms : NodeMetas}
  {c₀ c : Cpu} {count : Word} {is : List Instr}

/-- **A block that spares the held registers stays inside**, if it runs through. -/
theorem Inside.writing (hc : Enters mode g root pool c₀)
    (h : Inside mode g root pool c₀ count c) (hspares : Spares mode is)
    (hw : Writing (GivenAt mode g root ms c₀) is c fun _ => True) :
    Writing (GivenAt mode g root ms c₀) is c (Inside mode g root pool c₀ count) := by
  refine hw.get.kept.mono ?_
  rintro d ⟨⟨-, hget⟩, hkept⟩
  have hheld : ∀ r ∈ heldRegs mode, d.get r = c.get r := fun r hr =>
    hget r fun i hi => hspares i hi r hr
  have hsound := h.sound.kept hc (fun a ⟨j, hj, _, heq⟩ => ⟨j, hj, heq⟩) hkept
  exact ⟨(hheld _ (by simp [heldRegs])).trans h.sp, (hheld _ (by simp [heldRegs])).trans h.planes,
    (hheld _ (by simp [heldRegs])).trans h.scratch, (hheld _ (by simp [heldRegs])).trans h.counter,
    fun r hr hnot => (hheld r (by simp [heldRegs, hr, hnot])).trans (h.others r hr hnot), hsound⟩

/-- The next value of the counter. -/
theorem Inside.setCounter (h : Inside mode g root pool c₀ count c) (count' : Word) :
    Inside mode g root pool c₀ count' (c.set (counterReg mode) count') := by
  have hne : ∀ r ∈ [Reg.sp, planesReg mode, scratchReg mode], r ≠ counterReg mode := by
    cases mode <;> decide
  have hothers : ∀ r ∈ calleeSaved, r ∉ A64.registers (savedPairs mode) → r ≠ counterReg mode := by
    cases mode <;> decide
  refine ⟨?_, ?_, ?_, Cpu.get_set_self _ _ (by cases mode <;> decide), fun r hr hnot => ?_, h.sound⟩
  · exact (Cpu.get_set_of_ne _ _ (hne _ (by simp))).trans h.sp
  · exact (Cpu.get_set_of_ne _ _ (hne _ (by simp))).trans h.planes
  · exact (Cpu.get_set_of_ne _ _ (hne _ (by simp))).trans h.scratch
  · exact (Cpu.get_set_of_ne _ _ (hothers r hr hnot)).trans (h.others r hr hnot)

theorem Inside.with_flags (h : Inside mode g root pool c₀ count c) (f : A64.Flags) :
    Inside mode g root pool c₀ count { c with flags := f } :=
  ⟨h.sp, h.planes, h.scratch, h.counter, h.others, h.sound⟩

/-- A block without loads and stores that leaves the held registers alone. -/
theorem Inside.plain (hc : Enters mode g root pool c₀) (h : Inside mode g root pool c₀ count c)
    (hplain : ∀ i ∈ is, i.isPlain = true) (hspares : Spares mode is) :
    Writing (GivenAt mode g root ms c₀) is c (Inside mode g root pool c₀ count) :=
  h.writing hc hspares ((Writing.plain hplain c).mono fun _ _ => trivial)

end Loop

/-! ## Entry and exit -/

/-- Where a kernel may write: its frame and the words given to its nodes. -/
def Owns (mode : ExecutionMode) (g : Graph) (root : NodeRef) (ms : NodeMetas) (c₀ : Cpu)
    (a : Word) : Prop :=
  InFrame (c₀.get .sp) (frameWords mode) a ∨ GivenAt mode g root ms c₀ a

section Frame

variable {mode : ExecutionMode} {g : Graph} {root : NodeRef} {pool : ConstPool} {ms : NodeMetas}
  {c₀ c : Cpu} {count : Word}

theorem owns_of_given (a : Word) (ha : GivenAt mode g root ms c₀ a) : Owns mode g root ms c₀ a :=
  Or.inr ha

/-- **The registers are pushed**: the first pair, then the frame pointer is set, then the
other pairs. -/
theorem writing_pushes (hc : Enters mode g root pool c₀) :
    Writing (Owns mode g root ms c₀)
      ([A64.push (.x29, .x30)] ++ [.mov .x29 (.reg .sp)] ++ (savedPairs mode).tail.map A64.push) c₀
      fun d => Pushed (frameWords mode) c₀ (savedPairs mode) d ∧
        ∀ r, r ≠ .sp → r ≠ .x29 → d.get r = c₀.get r := by
  have hpairs : savedPairs mode = [(.x29, .x30)] ++ (savedPairs mode).tail := by
    cases mode <;> rfl
  have hlen : frameWords mode = 2 * (1 + (savedPairs mode).tail.length) := by cases mode <;> rfl
  have hsmall : frameWords mode < 2 ^ 60 := by cases mode <;> decide
  have hregs : Reg.sp ∉ A64.registers (savedPairs mode).tail ∧
      Reg.x29 ∉ A64.registers (savedPairs mode).tail := by
    cases mode <;> decide
  have hfirst := (Pushed.enter (frameWords mode) c₀).push (a := .x29) (b := .x30)
    (by rw [hlen, List.length_nil]; omega) hsmall hc.frame rfl rfl
  have hframe : Writing (InFrame (c₀.get .sp) (frameWords mode))
      ([A64.push (.x29, .x30)] ++ [.mov .x29 (.reg .sp)]) c₀ fun e =>
        Pushed (frameWords mode) c₀ [(.x29, .x30)] e ∧
          ∀ r, r ≠ .sp → r ≠ .x29 → e.get r = c₀.get r := by
    refine hfirst.append ?_
    rintro d ⟨hd, hget⟩
    refine .cons rfl (fun a ha => absurd ha List.not_mem_nil) (.nil ⟨⟨?_, hd.saved, hd.kept⟩, ?_⟩)
    · exact (Cpu.get_set_of_ne _ _ (by decide)).trans hd.sp
    · exact fun r hsp h29 => (Cpu.get_set_of_ne _ _ h29).trans (hget r hsp)
  refine (hframe.append ?_).widen fun a => Or.inl
  rintro d ⟨hd, hget⟩
  rw [hpairs]
  refine (hd.pushes (by rw [hlen, List.length_singleton]) hsmall hc.frame hregs.1
    fun r hr => hget r (fun heq => hregs.1 (heq ▸ hr)) fun heq => hregs.2 (heq ▸ hr)).mono ?_
  rintro e ⟨he, hsame⟩
  exact ⟨he, fun r hsp h29 => (hsame r hsp).trans (hget r hsp h29)⟩

/-- **The registers are popped**, and are as they were when the kernel was entered. -/
theorem writing_pops (mode : ExecutionMode) {W : Word → Prop}
    (hsp : c.get .sp = A64.below (c₀.get .sp) (frameWords mode))
    (hsaved : A64.Saved (c₀.get .sp) (savedPairs mode) c₀ c.mem)
    (hothers : ∀ r ∈ calleeSaved, r ∉ A64.registers (savedPairs mode) → c.get r = c₀.get r) :
    Writing W ((savedPairs mode).reverse.map A64.pop) c fun d =>
      ∀ r ∈ .sp :: calleeSaved, d.get r = c₀.get r := by
  have hnd : (Reg.sp :: A64.registers (savedPairs mode)).Nodup := by cases mode <;> decide
  have hz : Reg.xzr ∉ A64.registers (savedPairs mode) := by cases mode <;> decide
  have hnot : Reg.sp ∉ calleeSaved := by decide
  refine (A64.pops hsp hsaved hnd hz).mono ?_
  rintro d ⟨hdsp, -, hrestored, hother⟩ r hr
  rcases List.mem_cons.mp hr with rfl | hr
  · exact hdsp
  · by_cases hmem : r ∈ A64.registers (savedPairs mode)
    · exact hrestored r hmem
    · have hne : r ∉ Reg.sp :: A64.registers (savedPairs mode) := by
        rw [List.mem_cons, not_or]
        exact ⟨fun heq => hnot (heq ▸ hr), hmem⟩
      rw [hother r hne, hothers r hr hmem]

end Frame

/-! ## The law -/

/-- What a kernel entered with `c₀` does besides returning a mask: it returns to its caller,
with the stack pointer and the callee-saved registers as they were, and writes what is its
own. -/
structure KeepsFrame (mode : ExecutionMode) (g : Graph) (root : NodeRef) (ms : NodeMetas)
    (code : List Item) (c₀ : Cpu) : Prop where
  returns : ∃ d, A64.run code (Caller.fuel code) ⟨0, c₀⟩ = some (c₀.get .x30, d) ∧
    ∀ r ∈ .sp :: calleeSaved, d.get r = c₀.get r
  writes : ∀ a, .write a ∈ A64.trace code (Caller.fuel code) ⟨0, c₀⟩ → Owns mode g root ms c₀ a

/-- Code that leads to its `ret` keeps the frame. -/
theorem keepsFrame_of_leads {mode : ExecutionMode} {g : Graph} {root : NodeRef} {ms : NodeMetas}
    {code : List Item} {c₀ : Cpu} {pos n : ℕ}
    (h : LeadsWriting (Owns mode g root ms c₀) code 0 pos n (fun c => c = c₀)
      fun d => ∀ r ∈ .sp :: calleeSaved, d.get r = c₀.get r)
    (hret : A64.At code pos [.ret .x30]) (hfuel : n < Caller.fuel code) :
    KeepsFrame mode g root ms code c₀ := by
  obtain ⟨d, hd, hw, hsaved⟩ := A64.run_of_leadsWriting h hret hfuel rfl
  refine ⟨⟨d, ?_, hsaved⟩, hw⟩
  rw [hd, hsaved .x30 (by decide)]

end Jit
end ApexEngine
