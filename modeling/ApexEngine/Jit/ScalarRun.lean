import ApexEngine.Jit.Scalar

/-!
# The scalar kernel evaluates in list order

The machine code of `compile_scalar_expression` does what `Scalar.evalRows` says.  The
invariant of the row loop (`OnRow`) is indexed by the nodes of the row that are done:
cell `i` of the scratchpad has the value of the `i`-th of them.  What the cells of the
others have is left from the row before and is not read, since an operand that is not
a leaf is listed before the node it feeds.

`callExpr_scalarCode` is the whole call.
-/

namespace ApexEngine
namespace Jit

open A64 (Word Reg Cpu Instr Item Frame)
open Scalar (RowState)

/-! ## Comparing words -/

theorem holds_hi (a b : Word) : A64.Cond.hi.holds (A64.Flags.ofSub a b) = decide (b < a) := by
  rw [Bool.eq_iff_iff]
  simp only [A64.Cond.holds, A64.Flags.ofSub, Bool.and_eq_true, decide_eq_true_iff,
    Bool.not_eq_true', beq_eq_false_iff_ne, BitVec.le_def, BitVec.lt_def, ne_eq,
    BitVec.toNat_eq]
  omega

theorem holds_lo (a b : Word) : A64.Cond.lo.holds (A64.Flags.ofSub a b) = decide (a < b) := by
  rw [Bool.eq_iff_iff]
  simp only [A64.Cond.holds, A64.Flags.ofSub, decide_eq_true_iff, Bool.not_eq_true',
    decide_eq_false_iff_not, BitVec.le_def, BitVec.lt_def]
  omega

theorem holds_eq (a b : Word) : A64.Cond.eq.holds (A64.Flags.ofSub a b) = decide (a = b) := by
  rw [Bool.eq_iff_iff]
  simp only [A64.Cond.holds, A64.Flags.ofSub, decide_eq_true_iff, beq_iff_eq]

/-! ## Calls -/

/-- A call of a scalar kernel whose field slots are bound and whose nodes fit into the
scratchpad. -/
structure ScalarCallable (planes : Planes) (g : Graph) (root : NodeRef) (ms : NodeMetas) :
    Prop where
  fieldIdx : ∀ n ∈ g.loadNodes root,
    (ms n).fieldIdx = ((g.fieldNames root).idxOf (g.node n).fieldName : ℕ)
  fields_le : (g.fieldNames root).length ≤ 8
  bound : ∀ i < (g.fieldNames root).length, (planes i).isSome
  nodes_le : (g.listing root).length ≤ 512

/-- The leaves on row `k`. -/
def scalarLeaf (g : Graph) (ms : NodeMetas) (planes : Planes) (k : ℕ) (n : NodeRef) : Word :=
  match g.kind n with
  | .load => ((planes (ms n).fieldIdx.toNat).map fun p => p k).getD 0
  | _ => (g.node n).constValue

/-- What stays put while a row is evaluated. -/
structure Looping (caller : Caller) (planes : Planes) (S stack : ℕ → Word) (k : ℕ) (mask : Word)
    (c : Cpu) : Prop where
  mem : c.mem = caller.memory planes S stack
  x0 : c.get .x0 = caller.layout.cell .planesArray 0
  x1 : c.get .x1 = caller.layout.cell .scratch 0
  x19 : c.get .x19 = mask
  x20 : c.get .x20 = BitVec.ofNat 64 k
  sp : c.get .sp = caller.layout.cell .stack 8

/-- The machine on row `k`, with the nodes of `p` done. -/
structure OnRow (caller : Caller) (planes : Planes) (stack : ℕ → Word) (g : Graph)
    (root : NodeRef) (k : ℕ) (p : List NodeRef) (s : RowState) (mask : Word) (S : Scratch)
    (c : Cpu) : Prop where
  looping : Looping caller planes S stack k mask c
  x2 : c.get .x2 = s.left
  x3 : c.get .x3 = s.right
  x5 : c.get .x5 = s.res
  cell : ∀ n ∈ p, S ((g.listing root).idxOf n) = s.cell n

section Run

variable {caller : Caller} {planes : Planes} {scratch S stack : ℕ → Word} {g : Graph}
  {root : NodeRef} {ms : NodeMetas} {k : ℕ} {mask : Word} {c : Cpu} {p q : List NodeRef}
  {n : NodeRef} {s : RowState}

theorem Looping.frame {c' : Cpu} (h : Looping caller planes S stack k mask c) {rs : List Reg}
    (hf : Frame rs c c') (h0 : Reg.x0 ∉ rs) (h1 : Reg.x1 ∉ rs) (h19 : Reg.x19 ∉ rs)
    (h20 : Reg.x20 ∉ rs) (hsp : Reg.sp ∉ rs) : Looping caller planes S stack k mask c' where
  mem := hf.mem.trans h.mem
  x0 := (hf.get _ h0).trans h.x0
  x1 := (hf.get _ h1).trans h.x1
  x19 := (hf.get _ h19).trans h.x19
  x20 := (hf.get _ h20).trans h.x20
  sp := (hf.get _ hsp).trans h.sp

/-- Comparisons change nothing else. -/
theorem Looping.with_flags (h : Looping caller planes S stack k mask c) (f : A64.Flags) :
    Looping caller planes S stack k mask { c with flags := f } :=
  ⟨h.mem, h.x0, h.x1, h.x19, h.x20, h.sp⟩

/-! ### Operands -/

/-- The search finds a node that is listed before. -/
theorem opIdx_eq (hsplit : g.listing root = p ++ q) (hn : n ∈ p) :
    opIdx (g.listing root) p.length n = (g.listing root).idxOf n := by
  have hfind : p.findIdx? (fun m => decide (m = n)) = some (p.idxOf n) := by
    rw [List.findIdx?_eq_some_iff_findIdx_eq]
    refine ⟨List.idxOf_lt_length_of_mem hn, ?_⟩
    rw [List.idxOf]
    congr 1
  rw [opIdx, hsplit, List.take_left, hfind, Option.getD_some, List.idxOf_append_of_mem hn]

/-- A field on the current row. -/
theorem getField_exec (hcall : ScalarCallable planes g root ms) (hk : k < 64)
    (h : Looping caller planes S stack k mask c) (hn : n ∈ g.loadNodes root) {out : Reg}
    (hz : out ≠ .xzr) :
    ∃ c', A64.execs [.ldr .x4 (.offset .x0 (BitVec.ofInt 64 ((ms n).fieldIdx * 8))),
        .ldr out (.index .x4 .x20 3)] c = some c' ∧ Frame [.x4, out] c c' ∧
      c'.get out = scalarLeaf g ms planes k n := by
  obtain ⟨hmem, hkind⟩ := (g.mem_loadNodes root).mp hn
  have hidx := List.idxOf_lt_length_of_mem (g.name_mem_fieldNames hmem hkind)
  obtain ⟨plane, hp⟩ := Option.isSome_iff_exists.mp (hcall.bound _ hidx)
  have hi8 : (g.fieldNames root).idxOf (g.node n).fieldName < 8 := by
    have := hcall.fields_le
    omega
  simp only [scalarLeaf, hkind, hcall.fieldIdx n hn, Int.toNat_natCast, hp, Option.map_some,
    Option.getD_some, field_offset]
  generalize (g.fieldNames root).idxOf (g.node n).fieldName = i at hidx hp hi8
  have hptr : c.mem.load ((A64.Addr.offset .x0 (BitVec.ofNat 64 (8 * i))).resolve c).1 =
      some (caller.layout.cell (.plane ⟨i, hi8⟩) 0) := by
    have hcell := caller.layout.cell_add .planesArray 0 i
    rw [Nat.zero_add] at hcell
    rw [A64.Addr.resolve, h.x0, hcell, h.mem]
    exact caller.load_planesArray _ _ _ hi8 hp
  rw [A64.execs_ldr _ _ hptr]
  set d := c.set .x4 (caller.layout.cell (.plane ⟨i, hi8⟩) 0) with hd
  have hword : d.mem.load ((A64.Addr.index .x4 .x20 3).resolve d).1 = some (plane k) := by
    have hcell := caller.layout.cell_add (.plane ⟨i, hi8⟩) 0 k
    rw [Nat.zero_add] at hcell
    have haddr : ((A64.Addr.index .x4 .x20 3).resolve d).1 =
        caller.layout.cell (.plane ⟨i, hi8⟩) k := by
      rw [← hcell, A64.Addr.resolve, hd, Cpu.get_set_self _ _ (by decide),
        Cpu.get_set_of_ne _ _ (by decide), h.x20, ← lsl_three]
      rfl
    rw [haddr, hd, Cpu.mem_set, h.mem]
    exact caller.load_plane _ _ _ hi8 hp hk
  show ∃ c', A64.execs [.ldr out (.index .x4 .x20 3)] d = some c' ∧ _ ∧ _
  rw [A64.execs_ldr _ _ hword, A64.execs_nil]
  refine ⟨_, rfl, ((Frame.refl _ c).set (by simp) _).set (by simp) _, ?_⟩
  rw [Cpu.get_set_self _ _ hz]

/-- **An operand's code puts the operand into its register.**  An operand that is not
a leaf must be done. -/
theorem getOperand_exec (hcall : ScalarCallable planes g root ms) (hk : k < 64)
    (h : Looping caller planes S stack k mask c) (hsplit : g.listing root = p ++ q)
    {cell : NodeRef → Word} (hcell : ∀ m ∈ p, S ((g.listing root).idxOf m) = cell m)
    {operand : Option NodeRef}
    (hdone : ∀ m, operand = some m →
      m ∈ g.listing root ∧ (g.kind m = .load ∨ g.kind m = .const ∨ m ∈ p))
    {out : Reg} (hz : out ≠ .xzr) :
    ∃ c', A64.execs (getOperand g ms (g.listing root) p.length operand out) c = some c' ∧
      Frame [.x4, out] c c' ∧
      c'.get out = Scalar.fetch g (scalarLeaf g ms planes k) cell operand (c.get out) := by
  cases operand with
  | none => exact ⟨c, rfl, Frame.refl _ c, rfl⟩
  | some m =>
    obtain ⟨hmem, hcase⟩ := hdone m rfl
    have hinner : g.kind m ≠ .load → g.kind m ≠ .const → ∃ c', A64.execs
        [.ldr out (.offset .x1 (BitVec.ofNat 64 (8 * opIdx (g.listing root) p.length m)))] c =
        some c' ∧ Frame [.x4, out] c c' ∧ c'.get out = cell m := by
      intro hl hc
      have hm : m ∈ p := (hcase.resolve_left hl).resolve_left hc
      have hlt : (g.listing root).idxOf m < 512 := by
        have := List.idxOf_lt_length_of_mem hmem
        have := hcall.nodes_le
        omega
      have hword : c.mem.load ((A64.Addr.offset .x1
          (BitVec.ofNat 64 (8 * (g.listing root).idxOf m))).resolve c).1 = some (cell m) := by
        have hadd := caller.layout.cell_add .scratch 0 ((g.listing root).idxOf m)
        rw [Nat.zero_add] at hadd
        rw [A64.Addr.resolve, h.x1, hadd, h.mem, ← hcell m hm]
        exact caller.load_scratch _ _ _ hlt
      rw [opIdx_eq hsplit hm, A64.execs_ldr _ _ hword, A64.execs_nil]
      refine ⟨_, rfl, (Frame.refl _ c).set (by simp) _, ?_⟩
      rw [A64.Addr.resolve, Cpu.get_set_self _ _ hz]
    unfold getOperand Scalar.fetch
    cases hkind : g.kind m <;> simp only [hkind]
    case load => exact getField_exec hcall hk h ((g.mem_loadNodes root).mpr ⟨hmem, hkind⟩) hz
    case const =>
      obtain ⟨c', hc', hf, hv⟩ := execs_emitMovImm64 hz (g.node m).constValue c
      refine ⟨c', hc', hf.mono (by simp), ?_⟩
      rw [hv]
      simp only [scalarLeaf, hkind]
    all_goals exact hinner (by simp [hkind]) (by simp [hkind])

/-! ### One node -/

/-- The operation of a node on the operand registers. -/
theorem scalarOp_exec (hcall : ScalarCallable planes g root ms) (hk : k < 64)
    (h : Looping caller planes S stack k mask c) (hsplit : g.listing root = p ++ q)
    {cell : NodeRef → Word} (hcell : ∀ m ∈ p, S ((g.listing root).idxOf m) = cell m)
    (hn : n ∈ g.listing root) :
    ∃ c', A64.execs (scalarOp g ms (g.listing root) p.length n) c = some c' ∧
      Frame [.x4, .x5] c c' ∧
      c'.get .x5 = Scalar.result g (scalarLeaf g ms planes k) n (c.get .x2) (c.get .x3)
        (c.get .x5) := by
  have hframe : ∀ v, Frame [.x4, .x5] c (c.set .x5 v) := fun v =>
    (Frame.refl _ c).set (by simp) v
  have hflags : ∀ f v, Frame [.x4, .x5] c (Cpu.set { c with flags := f } .x5 v) := fun f v =>
    ((Frame.refl _ c).with_flags f).set (by simp) v
  have hget : ∀ (d : Cpu) v, (d.set .x5 v).get .x5 = v := fun d v => by
    rw [Cpu.get_set_self _ _ (by decide)]
  unfold scalarOp Scalar.result
  cases hkind : g.kind n with
  | load | const =>
    obtain ⟨c', hc', hf, hv⟩ := getOperand_exec hcall hk h hsplit hcell
      (fun m (hm : some n = some m) => by
        obtain rfl := Option.some.inj hm
        exact ⟨hn, by simp [hkind]⟩) (show Reg.x5 ≠ .xzr by decide)
    refine ⟨c', hc', hf, ?_⟩
    rw [hv]
    simp only [Scalar.fetch, hkind]
  | add => exact ⟨_, rfl, hframe _, hget _ _⟩
  | sub => exact ⟨_, rfl, hframe _, hget _ _⟩
  | and => exact ⟨_, rfl, hframe _, hget _ _⟩
  | or => exact ⟨_, rfl, hframe _, hget _ _⟩
  | gt =>
    refine ⟨_, rfl, hflags _ _, ?_⟩
    rw [hget]
    show (if A64.Cond.hi.holds (A64.Flags.ofSub (c.get .x2) (c.get .x3)) = true then _ else _) = _
    simp only [holds_hi, decide_eq_true_iff]
  | lt =>
    refine ⟨_, rfl, hflags _ _, ?_⟩
    rw [hget]
    show (if A64.Cond.lo.holds (A64.Flags.ofSub (c.get .x2) (c.get .x3)) = true then _ else _) = _
    simp only [holds_lo, decide_eq_true_iff]
  | eq =>
    refine ⟨_, rfl, hflags _ _, ?_⟩
    rw [hget]
    show (if A64.Cond.eq.holds (A64.Flags.ofSub (c.get .x2) (c.get .x3)) = true then _ else _) = _
    simp only [holds_eq, decide_eq_true_iff]
  | not | select | lsl | lsr => exact ⟨c, rfl, Frame.refl _ c, rfl⟩

/-- The store of a result into the cell of a position. -/
theorem Looping.store_cell (h : Looping caller planes S stack k mask c) {i : ℕ} (hi : i < 512) :
    c.mem.store ((A64.Addr.offset .x1 (BitVec.ofNat 64 (8 * i))).resolve c).1 (c.get .x5) =
      some (caller.memory planes (Function.update S i (c.get .x5)) stack) := by
  have hadd := caller.layout.cell_add .scratch 0 i
  rw [Nat.zero_add] at hadd
  rw [A64.Addr.resolve, h.x1, hadd, h.mem]
  exact caller.store_scratch _ _ _ hi _

/-- The cells of the nodes before are those of the positions before. -/
theorem idxOf_of_split (hsplit : g.listing root = p ++ n :: q) (hnp : n ∉ p) :
    (g.listing root).idxOf n = p.length ∧ ∀ m ∈ p, (g.listing root).idxOf m < p.length := by
  rw [hsplit]
  refine ⟨?_, fun m hm => ?_⟩
  · rw [List.idxOf_append_of_notMem hnp, List.idxOf_cons_self, Nat.add_zero]
  · rw [List.idxOf_append_of_mem hm]
    exact List.idxOf_lt_length_of_mem hm

/-- **The code of a node** computes its cell. -/
theorem scalarBlock_exec (hcall : ScalarCallable planes g root ms) (hk : k < 64)
    (hsplit : g.listing root = p ++ n :: q)
    (h : OnRow caller planes stack g root k p s mask S c) :
    ∃ c' S', A64.execs (scalarBlock g ms (g.listing root) n p.length) c = some c' ∧
      OnRow caller planes stack g root k (p ++ [n])
        (Scalar.evalNode g (scalarLeaf g ms planes k) s n) mask S' c' := by
  have hpost := g.postOrder_listing root
  rw [hsplit] at hpost
  have hnp : n ∉ p := hpost.notMem_left
  have hn : n ∈ g.listing root := by
    rw [hsplit]
    simp
  have hchild : ∀ m ∈ (g.node n).children,
      m ∈ g.listing root ∧ (g.kind m = .load ∨ g.kind m = .const ∨ m ∈ p) := by
    intro m hm
    have := hpost.children_mem m hm
    refine ⟨?_, Or.inr (Or.inr this)⟩
    rw [hsplit]
    exact List.mem_append_left _ this
  obtain ⟨c₁, hc₁, hf₁, hv₁⟩ := getOperand_exec hcall hk h.looping hsplit h.cell
    (fun m (hm : (g.node n).left = some m) => hchild m (Node.mem_children.mpr (Or.inl hm)))
    (show Reg.x2 ≠ .xzr by decide)
  have hl₁ := h.looping.frame hf₁ (by decide) (by decide) (by decide) (by decide) (by decide)
  obtain ⟨c₂, hc₂, hf₂, hv₂⟩ := getOperand_exec hcall hk hl₁ hsplit h.cell
    (fun m (hm : (g.node n).right = some m) =>
      hchild m (Node.mem_children.mpr (Or.inr (Or.inl hm))))
    (show Reg.x3 ≠ .xzr by decide)
  have hl₂ := hl₁.frame hf₂ (by decide) (by decide) (by decide) (by decide) (by decide)
  obtain ⟨c₃, hc₃, hf₃, hv₃⟩ := scalarOp_exec hcall hk hl₂ hsplit h.cell hn
  have hl₃ := hl₂.frame hf₃ (by decide) (by decide) (by decide) (by decide) (by decide)
  -- the operand and result registers as the row state has them
  rw [h.x2] at hv₁
  rw [hf₁.get .x3 (by decide), h.x3] at hv₂
  rw [(hf₂.get .x2 (by decide)).trans hv₁, hv₂, hf₂.get .x5 (by decide), hf₁.get .x5 (by decide),
    h.x5] at hv₃
  obtain ⟨hidx, hbefore⟩ := idxOf_of_split hsplit hnp
  have hlt : p.length < 512 := by
    have hlen := congrArg List.length hsplit
    have := hcall.nodes_le
    rw [List.length_append, List.length_cons] at hlen
    omega
  have hstore := hl₃.store_cell hlt
  refine ⟨{ c₃ with mem := caller.memory planes (Function.update S p.length (c₃.get .x5)) stack },
    Function.update S p.length (c₃.get .x5), ?_, ?_⟩
  · rw [scalarBlock, A64.execs_append, A64.execs_append, A64.execs_append, hc₁, Option.bind_some,
      hc₂, Option.bind_some, hc₃, Option.bind_some, A64.execs_str _ _ hstore]
    rfl
  · constructor
    · exact ⟨rfl, hl₃.x0, hl₃.x1, hl₃.x19, hl₃.x20, hl₃.sp⟩
    · exact (hf₃.get .x2 (by decide)).trans ((hf₂.get .x2 (by decide)).trans hv₁)
    · exact (hf₃.get .x3 (by decide)).trans hv₂
    · exact hv₃
    · intro m hm
      simp only [Scalar.evalNode]
      by_cases hmn : m = n
      · subst hmn
        rw [hidx, Function.update_self, Function.update_self]
        exact hv₃
      · have hmp : m ∈ p := by simpa [hmn] using hm
        rw [Function.update_of_ne (hbefore m hmp).ne, Function.update_of_ne hmn]
        exact h.cell m hmp

/-- The remaining nodes of a row. -/
theorem scalarBlocks_exec (hcall : ScalarCallable planes g root ms) (hk : k < 64)
    (hsplit : g.listing root = p ++ q)
    (h : OnRow caller planes stack g root k p s mask S c) :
    ∃ c' S', A64.execs ((q.zipIdx p.length).flatMap fun e =>
        scalarBlock g ms (g.listing root) e.1 e.2) c = some c' ∧
      OnRow caller planes stack g root k (p ++ q)
        (q.foldl (Scalar.evalNode g (scalarLeaf g ms planes k)) s) mask S' c' := by
  induction q generalizing p s S c with
  | nil =>
    rw [List.append_nil]
    exact ⟨c, S, rfl, h⟩
  | cons n q ih =>
    obtain ⟨c₁, S₁, hc₁, h₁⟩ := scalarBlock_exec hcall hk hsplit h
    obtain ⟨c₂, S₂, hc₂, h₂⟩ := ih (p := p ++ [n]) (by rw [hsplit]; simp) h₁
    rw [List.length_append, List.length_singleton] at hc₂
    refine ⟨c₂, S₂, ?_, ?_⟩
    · rw [List.zipIdx_cons, List.flatMap_cons, A64.execs_append, hc₁]
      exact hc₂
    · rw [List.append_assoc] at h₂
      exact h₂

/-! ### The row loop -/

/-- The machine before row `k`. -/
def AtRow (caller : Caller) (planes : Planes) (stack : ℕ → Word) (g : Graph) (root : NodeRef)
    (ms : NodeMetas) (s : RowState) (k : ℕ) (c : Cpu) : Prop :=
  ∃ S, OnRow caller planes stack g root k []
    (Scalar.evalRows g root (scalarLeaf g ms planes) s k).1
    (Scalar.evalRows g root (scalarLeaf g ms planes) s k).2 S c

theorem lsl_ofNat (v : Word) (hk : k < 64) :
    A64.BinOp.eval .lsl v (BitVec.ofNat 64 k) = v <<< k := by
  show v <<< ((BitVec.ofNat 64 k).toNat % 64) = v <<< k
  rw [BitVec.toNat_ofNat, Nat.mod_eq_of_lt (show k < 2 ^ 64 by omega), Nat.mod_eq_of_lt hk]

/-- **An iteration of the row loop** computes its row and shifts its bit in. -/
theorem scalarBody_exec (hcall : ScalarCallable planes g root ms) (hk : k < 64)
    (h : AtRow caller planes stack g root ms s k c) :
    ∃ c', A64.execs (scalarBody g ms (g.listing root)) c = some c' ∧
      AtRow caller planes stack g root ms s (k + 1) c' := by
  obtain ⟨S, h⟩ := h
  obtain ⟨c₁, S₁, hc₁, h₁⟩ := scalarBlocks_exec hcall hk (List.nil_append _).symm h
  rw [List.length_nil] at hc₁
  have hres := h₁.x5
  refine ⟨((c₁.set .x5 (c₁.get .x5 <<< k)).set .x19 (c₁.get .x19 ||| c₁.get .x5 <<< k)).set .x20
    (BitVec.ofNat 64 (k + 1)), ?_, S₁, ?_⟩
  · rw [scalarBody, A64.execs_append, hc₁, Option.bind_some, scalarAccumulate, A64.execs_bin,
      Cpu.operand_reg, h₁.looping.x20, lsl_ofNat _ hk, A64.execs_bin, Cpu.operand_reg,
      Cpu.get_set_of_ne _ _ (by decide), Cpu.get_set_self _ _ (by decide),
      A64.execs_bin, Cpu.operand_imm, Cpu.get_set_of_ne _ _ (by decide),
      Cpu.get_set_of_ne _ _ (by decide), h₁.looping.x20, BitVec.ofNat_add]
    rfl
  · have hget : ∀ r, r ∉ [Reg.x5, .x19, .x20] →
        (((c₁.set .x5 (c₁.get .x5 <<< k)).set .x19 (c₁.get .x19 ||| c₁.get .x5 <<< k)).set .x20
          (BitVec.ofNat 64 (k + 1))).get r = c₁.get r := by
      intro r hr
      simp only [List.mem_cons, List.not_mem_nil, or_false, not_or] at hr
      rw [Cpu.get_set_of_ne _ _ hr.2.2, Cpu.get_set_of_ne _ _ hr.2.1, Cpu.get_set_of_ne _ _ hr.1]
    constructor
    · refine ⟨h₁.looping.mem, ?_, ?_, ?_, ?_, ?_⟩
      · rw [hget _ (by decide), h₁.looping.x0]
      · rw [hget _ (by decide), h₁.looping.x1]
      · rw [Cpu.get_set_of_ne _ _ (by decide), Cpu.get_set_self _ _ (by decide),
          h₁.looping.x19, hres]
        rfl
      · rw [Cpu.get_set_self _ _ (by decide)]
      · rw [hget _ (by decide), h₁.looping.sp]
    · rw [hget _ (by decide), h₁.x2]
      rfl
    · rw [hget _ (by decide), h₁.x3]
      rfl
    · rw [Cpu.get_set_of_ne _ _ (by decide), Cpu.get_set_of_ne _ _ (by decide), Cpu.get_set,
        if_neg (by decide), if_pos rfl, hres]
      rfl
    · exact fun n hn => absurd hn (by simp)

theorem AtRow.with_flags (h : AtRow caller planes stack g root ms s k c) (f : A64.Flags) :
    AtRow caller planes stack g root ms s k { c with flags := f } := by
  obtain ⟨S, h⟩ := h
  exact ⟨S, h.looping.with_flags f, h.x2, h.x3, h.x5, h.cell⟩

/-- **The row loop** computes all 64 rows. -/
theorem scalar_leads (hcall : ScalarCallable planes g root ms) {code : List Item} {pos : ℕ}
    (hnd : (A64.labels code).Nodup)
    (hat : A64.At code pos (A64.loopItems 0 1 [.cmp .x20 (.imm 64)] .hs
      (scalarBody g ms (g.listing root)))) :
    A64.Leads code pos
      (pos + (A64.loopItems 0 1 [.cmp .x20 (.imm 64)] .hs
        (scalarBody g ms (g.listing root))).length)
      (65 * (A64.loopItems 0 1 [.cmp .x20 (.imm 64)] .hs
        (scalarBody g ms (g.listing root))).length)
      (AtRow caller planes stack g root ms s 0) (AtRow caller planes stack g root ms s 64) := by
  refine A64.leads_loop (I := AtRow caller planes stack g root ms s) 64 hnd hat ?_ ?_
  · intro k hk c hc
    have hx20 : c.get .x20 = BitVec.ofNat 64 k := by
      obtain ⟨S, h⟩ := hc
      exact h.looping.x20
    refine ⟨_, rfl, ?_, ?_⟩
    · show A64.Cond.hs.holds (A64.Flags.ofSub (c.get .x20) (BitVec.ofNat 64 64)) = false
      rw [hx20, hs_ofNat (by omega) (by omega), decide_eq_false (by omega)]
    · obtain ⟨c', hc', h'⟩ := scalarBody_exec hcall hk (hc.with_flags _)
      exact ⟨c', hc', h'⟩
  · intro c hc
    have hx20 : c.get .x20 = BitVec.ofNat 64 64 := by
      obtain ⟨S, h⟩ := hc
      exact h.looping.x20
    refine ⟨_, rfl, ?_, hc.with_flags _⟩
    show A64.Cond.hs.holds (A64.Flags.ofSub (c.get .x20) (BitVec.ofNat 64 64)) = true
    rw [hx20, hs_ofNat (by omega) (by omega), decide_eq_true (by omega)]

/-! ### Entry and exit -/

/-- The frame is built and the mask is empty. -/
theorem scalarPrologue_exec (g : Graph) (root : NodeRef) (ms : NodeMetas)
    (hmem : c.mem = caller.memory planes scratch stack)
    (hsp : c.get .sp = caller.layout.cell .stack 12)
    (hx0 : c.get .x0 = caller.layout.cell .planesArray 0)
    (hx1 : c.get .x1 = caller.layout.cell .scratch 0) (cell : NodeRef → Word) :
    ∃ c' stack', A64.execs scalarPrologue c = some c' ∧
      (stack' 8 = c.get .x19 ∧ stack' 9 = c.get .x20 ∧ stack' 10 = c.get .x29 ∧
        stack' 11 = c.get .x30) ∧
      AtRow caller planes stack' g root ms ⟨c.get .x2, c.get .x3, c.get .x5, cell⟩ 0 c' := by
  obtain ⟨c₁, hc₁, hm₁, hsp₁, hg₁⟩ := execs_push (j := 10) (by omega) hmem hsp .x29 .x30
    [.mov .x29 (.reg .sp), .stp .x19 .x20 (.pre .sp (-16)), .mov .x19 (.imm 0), .mov .x20 (.imm 0)]
  have hsp₁' : (c₁.set .x29 (c₁.get .sp)).get .sp = caller.layout.cell .stack (8 + 2) := by
    rw [Cpu.get_set_of_ne _ _ (by decide), hsp₁]
  obtain ⟨c₂, hc₂, hm₂, hsp₂, hg₂⟩ := execs_push (j := 8) (by omega)
    ((Cpu.mem_set c₁ .x29 _).trans hm₁) hsp₁' .x19 .x20 [.mov .x19 (.imm 0), .mov .x20 (.imm 0)]
  have hget : ∀ r, r ∉ [Reg.sp, .x29, .x19, .x20] →
      ((c₂.set .x19 0).set .x20 0).get r = c.get r := by
    intro r hr
    simp only [List.mem_cons, List.not_mem_nil, or_false, not_or] at hr
    rw [Cpu.get_set_of_ne _ _ hr.2.2.2, Cpu.get_set_of_ne _ _ hr.2.2.1, hg₂ r hr.1,
      Cpu.get_set_of_ne _ _ hr.2.1, hg₁ r hr.1]
  refine ⟨(c₂.set .x19 0).set .x20 0, _, ?_, ?_, scratch, ⟨⟨hm₂, ?_, ?_, ?_, ?_, ?_⟩, ?_, ?_, ?_,
    fun n hn => absurd hn (by simp)⟩⟩
  · rw [scalarPrologue, hc₁, A64.execs_mov, Cpu.operand_reg, hc₂]
    rfl
  · simp only [Cpu.get_set_of_ne, ne_eq, reduceCtorEq, not_false_eq_true]
    rw [hg₁ .x19 (by decide), hg₁ .x20 (by decide)]
    exact ⟨rfl, rfl, rfl, rfl⟩
  · rw [hget _ (by decide), hx0]
  · rw [hget _ (by decide), hx1]
  · rw [Cpu.get_set_of_ne _ _ (by decide), Cpu.get_set_self _ _ (by decide)]
    rfl
  · rw [Cpu.get_set_self _ _ (by decide)]
    rfl
  · rw [Cpu.get_set_of_ne _ _ (by decide), Cpu.get_set_of_ne _ _ (by decide), hsp₂]
  · rw [hget _ (by decide)]
    rfl
  · rw [hget _ (by decide)]
    rfl
  · rw [hget _ (by decide)]
    rfl

/-- The mask is returned and the caller's registers are put back. -/
theorem scalarEpilogue_exec (h : Looping caller planes S stack k mask c) :
    ∃ c', A64.execs scalarEpilogue c = some c' ∧ c'.mem = c.mem ∧ c'.get .x0 = mask ∧
      c'.get .sp = caller.layout.cell .stack 12 ∧ c'.get .x19 = stack 8 ∧
      c'.get .x20 = stack 9 ∧ c'.get .x29 = stack 10 ∧ c'.get .x30 = stack 11 := by
  have hsp : (c.set .x0 (c.get .x19)).get .sp = caller.layout.cell .stack 8 := by
    rw [Cpu.get_set_of_ne _ _ (by decide), h.sp]
  rw [scalarEpilogue, A64.execs_mov, Cpu.operand_reg,
    execs_pop (j := 8) (by omega) ((Cpu.mem_set c .x0 _).trans h.mem) hsp,
    execs_pop (j := 10) (by omega) (by exact h.mem) (by simp), h.x19]
  exact ⟨_, rfl, rfl, by simp, by simp, by simp, by simp, by simp, by simp⟩

/-! ### The call -/

theorem labels_scalarCode (g : Graph) (root : NodeRef) (ms : NodeMetas) :
    A64.labels (g.scalarCode root ms) = [0, 1] := by
  simp [Graph.scalarCode, emitScalar]

/-- The loop of the kernel and the code around it. -/
theorem oneLoop_scalarCode (g : Graph) (root : NodeRef) (ms : NodeMetas) :
    A64.OneLoop (g.scalarCode root ms) scalarPrologue
      (A64.loopItems 0 1 [.cmp .x20 (.imm 64)] .hs (scalarBody g ms (g.listing root)))
      scalarEpilogue .x30 :=
  A64.oneLoop ..

/-- **The kernel returns** the mask of its rows. -/
theorem run_scalarCode (hcall : ScalarCallable planes g root ms)
    (hmem : c.mem = caller.memory planes scratch stack)
    (hsp : c.get .sp = caller.layout.cell .stack 12)
    (hx0 : c.get .x0 = caller.layout.cell .planesArray 0)
    (hx1 : c.get .x1 = caller.layout.cell .scratch 0) :
    ∃ c', A64.run (g.scalarCode root ms) (Caller.fuel (g.scalarCode root ms)) ⟨0, c⟩ =
        some (c.get .x30, c') ∧
      c'.get .x0 = Scalar.mask g root (scalarLeaf g ms planes) (c.get .x2) (c.get .x3)
        (c.get .x5) ∧
      c'.get .sp = caller.layout.cell .stack 12 ∧ c'.get .x19 = c.get .x19 ∧
      c'.get .x20 = c.get .x20 ∧ c'.get .x29 = c.get .x29 := by
  have hnd : (A64.labels (g.scalarCode root ms)).Nodup := by
    rw [labels_scalarCode]
    decide
  have hat := oneLoop_scalarCode g root ms
  obtain ⟨c₁, stack', hc₁, ⟨h8, h9, h10, h11⟩, hrow⟩ :=
    scalarPrologue_exec g root ms hmem hsp hx0 hx1 fun _ => 0
  have hs₁ := A64.steps_block hat.atEntry hc₁
  obtain ⟨k₂, hk₂, c₂, hs₂, S, hend⟩ := scalar_leads hcall hnd hat.atLoop c₁ hrow
  obtain ⟨c₃, hc₃, -, hv₃, hsp₃, h19, h20, h29, h30⟩ := scalarEpilogue_exec hend.looping
  have hs₃ := A64.steps_block hat.atTail hc₃
  refine ⟨c₃, ?_, hv₃, hsp₃, h19.trans h8, h20.trans h9, h29.trans h10⟩
  rw [← h11, ← h30]
  refine A64.run_of_steps_ret ((hs₁.trans hs₂).trans hs₃) hat.atRet ?_
  rw [Caller.fuel, hat.length]
  omega

/-- **A call of the kernel**: it returns the mask of the evaluation in list order,
entered with what the caller has in `x2`, `x3` and `x5`, whatever the scratchpad
contains. -/
theorem callExpr_scalarCode (caller : Caller) (scratch : Scratch)
    (hcall : ScalarCallable planes g root ms) :
    ∃ S, caller.callExpr (g.scalarCode root ms) planes scratch =
      some (Scalar.mask g root (scalarLeaf g ms planes) (caller.regs .x2) (caller.regs .x3)
        (caller.regs .x5), S) := by
  obtain ⟨c', hrun, hx0, -⟩ := run_scalarCode hcall
    (caller.enter_mem (caller.layout.cell .planesArray 0) planes scratch) (caller.enter_sp ..)
    (caller.enter_x0 ..) (caller.enter_x1 ..)
  refine ⟨fun j => (c'.mem (caller.layout.cell .scratch j)).getD 0, ?_⟩
  rw [Caller.callExpr, hrun, Option.map_some, hx0,
    caller.enter_get _ _ _ (by decide) (by decide) (by decide) (by decide),
    caller.enter_get _ _ _ (by decide) (by decide) (by decide) (by decide),
    caller.enter_get _ _ _ (by decide) (by decide) (by decide) (by decide)]

end Run
end Jit
end ApexEngine
