import ApexEngine.Jit.Modes
import Mathlib.Data.BitVec

/-!
# Sums and differences in the scratchpad

The adders of a bit-sliced kernel leave their results in the scratchpad, one plane for
each bit, where later adders and the comparisons read them.  Nothing after the first loop
writes there, so a call returns the scratchpad as that loop leaves it.

What a slot shows is exact: in every lane the sum or difference of what the operands
show, less the borrow that a subtraction takes in every lane but the first
(`slots_show`).  The carry register of a subtraction starts from the number one, which as
a word of 64 carries is set in lane zero only.  `Graph.borrows` counts what is missing
from a node in the end: an addition adds up what its operands miss, a subtraction
subtracts it and loses one more (`laneValue_eq_value_sub`).

So the slots show the sums and differences of all rows exactly when there are no
differences (`slotsShow_iff`).  The first subtractions in a chain, whose operands miss
nothing, are always one short.
-/

namespace ApexEngine
namespace Jit

open A64 (Word)
open BitPlane (Shows)

namespace Graph

variable (g : Graph)

/-- A value made of fields and constants by additions and subtractions. -/
inductive IsSum : NodeRef → Prop where
  | load {n : NodeRef} : g.kind n = .load → IsSum n
  | const {n : NodeRef} : g.kind n = .const → IsSum n
  | adder {n left right : NodeRef} : (g.kind n).isAdder = true → (g.node n).left = some left →
      (g.node n).right = some right → IsSum left → IsSum right → IsSum n

/-- What a node misses from what its operands miss. -/
def borrowsStep (n : NodeRef) (left right _cond : Option ℤ) : ℤ :=
  match g.kind n with
  | .add => left.getD 0 + right.getD 0
  | .sub => left.getD 0 - right.getD 0 + 1
  | _ => 0

/-- What is missing from a node in the lanes after the first. -/
def borrows : NodeRef → ℤ := g.fold g.borrowsStep

/-- What is missing from a node in a lane. -/
def laneBorrows (lane : ℕ) (n : NodeRef) : ℤ := if lane = 0 then 0 else g.borrows n

theorem borrows_eq (n : NodeRef) :
    g.borrows n = g.borrowsStep n ((g.node n).left.map g.borrows)
      ((g.node n).right.map g.borrows) ((g.node n).cond.map g.borrows) :=
  g.fold_eq _ n

/-- A comparison of two sums. -/
structure Compares (n lesser greater : NodeRef) : Prop where
  operands : g.kind n = .gt ∧ (g.node n).left = some greater ∧ (g.node n).right = some lesser ∨
    g.kind n = .lt ∧ (g.node n).left = some lesser ∧ (g.node n).right = some greater
  lesser : g.IsSum lesser
  greater : g.IsSum greater

/-- The nodes of an expression that are sums of fields and constants. -/
def SumIn (root n : NodeRef) : Prop := n ∈ g.listing root ∧ g.IsSum n

end Graph

section Values

variable {g : Graph} {root n left right : NodeRef} {row : Graph.Row} {lane : ℕ}

theorem Graph.IsSum.resultKind (h : g.IsSum n) : (g.kind n).resultKind = .bitplane := by
  cases h with
  | load hk | const hk => rw [hk]; rfl
  | adder hk => exact NodeKind.resultKind_of_isAdder hk

/-- A sum that is not an adder is a field or a constant. -/
theorem Graph.IsSum.leaf (h : g.IsSum n) (hadd : (g.kind n).isAdder = false) :
    g.kind n = .load ∨ g.kind n = .const := by
  cases h with
  | load hk => exact Or.inl hk
  | const hk => exact Or.inr hk
  | adder hk => exact absurd hadd (by simp [hk])

/-- The operands of an adder that is a sum are sums. -/
theorem Graph.IsSum.operands (h : g.IsSum n) (hadd : (g.kind n).isAdder = true) :
    ∃ left right, (g.node n).left = some left ∧ (g.node n).right = some right ∧
      g.IsSum left ∧ g.IsSum right := by
  cases h with
  | load hk | const hk => exact absurd hadd (by rw [hk]; decide)
  | adder _ hl hr hls hrs => exact ⟨_, _, hl, hr, hls, hrs⟩

theorem values_sumIn (g : Graph) (root : NodeRef) : Circuit.Values g (g.SumIn root) where
  resultKind _ hn := hn.2.resultKind
  operands n hn hadd := by
    obtain ⟨l, r, hl, hr, hls, hrs⟩ := hn.2.operands hadd
    exact ⟨l, r, hl, hr, ⟨Graph.mem_listing_left hn.1 hl, hls⟩,
      Graph.mem_listing_right hn.1 hr, hrs⟩

theorem borrows_of_add (hk : g.kind n = .add) (hl : (g.node n).left = some left)
    (hr : (g.node n).right = some right) : g.borrows n = g.borrows left + g.borrows right := by
  rw [g.borrows_eq, Graph.borrowsStep, hk, hl, hr]
  rfl

theorem borrows_of_sub (hk : g.kind n = .sub) (hl : (g.node n).left = some left)
    (hr : (g.node n).right = some right) :
    g.borrows n = g.borrows left - g.borrows right + 1 := by
  rw [g.borrows_eq, Graph.borrowsStep, hk, hl, hr]
  rfl

theorem borrows_of_not_adder (h : (g.kind n).isAdder = false) : g.borrows n = 0 := by
  rw [g.borrows_eq, Graph.borrowsStep]
  cases hk : g.kind n <;> simp_all [NodeKind.isAdder]

theorem value_of_add (hk : g.kind n = .add) (hl : (g.node n).left = some left)
    (hr : (g.node n).right = some right) :
    g.value row n = g.value row left + g.value row right := by
  rw [g.value_eq, Graph.valueStep, hk, hl, hr]
  rfl

theorem value_of_sub (hk : g.kind n = .sub) (hl : (g.node n).left = some left)
    (hr : (g.node n).right = some right) :
    g.value row n = g.value row left - g.value row right := by
  rw [g.value_eq, Graph.valueStep, hk, hl, hr]
  rfl

theorem slicedLeaf_eq_value (hk : g.kind n = .load ∨ g.kind n = .const) :
    g.slicedLeaf row n = g.value row n := by
  rw [Graph.slicedLeaf, g.value_eq, Graph.valueStep]
  rcases hk with hk | hk <;> rw [hk]

theorem ofInt_sub (x y : ℤ) : BitVec.ofInt 64 (x - y) = BitVec.ofInt 64 x - BitVec.ofInt 64 y := by
  rw [Int.sub_eq_add_neg, BitVec.ofInt_add, BitVec.ofInt_neg, BitVec.sub_eq_add_neg]

/-- An adder misses what its operands miss, and a difference one more. -/
theorem laneValue_adder_sub {leaf : NodeRef → Word} (hadd : (g.kind n).isAdder = true)
    (hl : (g.node n).left = some left) (hr : (g.node n).right = some right) {x y : Word}
    (hx : Circuit.laneValue g leaf lane left = x - BitVec.ofInt 64 (g.laneBorrows lane left))
    (hy : Circuit.laneValue g leaf lane right = y - BitVec.ofInt 64 (g.laneBorrows lane right)) :
    Circuit.laneValue g leaf lane n =
      (if g.kind n = .add then x + y else x - y) - BitVec.ofInt 64 (g.laneBorrows lane n) := by
  rw [Circuit.laneValue, g.fold_eq, Circuit.laneStep, hl, hr]
  show (match g.kind n with
    | .add => Circuit.laneValue g leaf lane left + Circuit.laneValue g leaf lane right
    | .sub => Circuit.laneValue g leaf lane left - Circuit.laneValue g leaf lane right -
        (if lane = 0 then 0 else 1)
    | _ => leaf n) = _
  rw [hx, hy]
  cases hk : g.kind n with
  | add =>
    rw [if_pos rfl]
    simp only [Graph.laneBorrows, borrows_of_add hk hl hr]
    split
    · simp
    · rw [BitVec.ofInt_add]
      ring
  | sub =>
    rw [if_neg (show NodeKind.sub ≠ .add by decide)]
    simp only [Graph.laneBorrows, borrows_of_sub hk hl hr]
    split
    · simp
    · rw [BitVec.ofInt_add, ofInt_sub, show BitVec.ofInt 64 1 = (1 : Word) from rfl]
      ring
  | _ => exact absurd hadd (by rw [hk]; decide)

/-- **What a node has in a lane**: its value, less what it misses there. -/
theorem laneValue_eq_value_sub (h : g.IsSum n) :
    Circuit.laneValue g (g.slicedLeaf row) lane n =
      g.value row n - BitVec.ofInt 64 (g.laneBorrows lane n) := by
  induction h with
  | @load n hk | @const n hk =>
    have hadd : (g.kind n).isAdder = false := by rw [hk]; rfl
    have hzero : g.laneBorrows lane n = 0 := by
      rw [Graph.laneBorrows, borrows_of_not_adder hadd, ite_self]
    rw [Circuit.laneValue_of_not_adder hadd, slicedLeaf_eq_value (by simp [hk]), hzero]
    simp
  | @adder n left right hadd hl hr _ _ ihl ihr =>
    rw [laneValue_adder_sub hadd hl hr ihl ihr]
    rcases NodeKind.isAdder_iff.mp hadd with hk | hk
    · rw [if_pos hk, value_of_add hk hl hr]
    · rw [if_neg (by rw [hk]; decide), value_of_sub hk hl hr]

/-- A comparison of sums that miss nothing is decided as it should in every lane. -/
theorem Graph.Compares.verdict_eq_truth {lesser greater : NodeRef} (h : g.Compares n lesser greater)
    (hl : g.borrows lesser = 0) (hg : g.borrows greater = 0) :
    Circuit.verdict g (g.slicedLeaf row) lane n = g.truth row n := by
  have hvalue : ∀ c, g.IsSum c → g.borrows c = 0 →
      Circuit.laneValue g (g.slicedLeaf row) lane c = g.value row c := by
    intro c hc hzero
    rw [laneValue_eq_value_sub hc, Graph.laneBorrows, hzero, ite_self]
    exact BitVec.sub_zero _
  rw [g.truth_eq, Graph.truthStep, Circuit.verdict]
  rcases h.operands with ⟨hk, hleft, hright⟩ | ⟨hk, hleft, hright⟩ <;>
    simp only [hk, hleft, hright, Circuit.operandValue, Graph.operandValue, Option.map_some,
      Option.getD_some, hvalue _ h.lesser hl, hvalue _ h.greater hg]

end Values

/-! ## The slots after a call -/

/-- The sum or difference of the operands of an adder. -/
def Graph.combined (g : Graph) (row : Graph.Row) (n : NodeRef) : Word :=
  if g.kind n = .add then
    g.operandValue row (g.node n).left + g.operandValue row (g.node n).right
  else g.operandValue row (g.node n).left - g.operandValue row (g.node n).right

/-- The slot of every adder shows the sum or difference of its operands on every row. -/
def SlotsShow (g : Graph) (root : NodeRef) (ms : NodeMetas) (scratch : Scratch)
    (rows : ℕ → Graph.Row) : Prop :=
  ∀ n ∈ g.adderNodes root, ∀ r < 64,
    Shows (fun b => scratch (slotCell ms n b)) r (g.combined (rows r) n)

section Slots

variable {caller : Caller} {planes : Planes} {scratch : Scratch} {g : Graph} {root n : NodeRef}
  {ms : NodeMetas} {konst : NodeRef → Word} {rows : ℕ → Graph.Row} {row : Graph.Row}

theorem combined_eq_value (hadd : (g.kind n).isAdder = true) : g.combined row n = g.value row n := by
  rw [Graph.combined, g.value_eq, Graph.valueStep]
  cases hk : g.kind n with
  | add => rw [if_pos rfl]; rfl
  | sub => rw [if_neg (by decide)]; rfl
  | _ => exact absurd hadd (by rw [hk]; decide)

/-- What the leaves of a sum are connected to shows the rows, whatever the scratchpad contains. -/
theorem inputs_sumIn (hp : Presents .bitSliced g root ms planes rows) (hn : g.SumIn root n)
    (hadd : (g.kind n).isAdder = false) {r b : ℕ} (hr : r < 64) (hb : b < 64) :
    (inputs g ms planes scratch n b).getLsbD r = (g.slicedLeaf (rows r) n).getLsbD b := by
  unfold inputs Graph.slicedLeaf
  rcases hn.2.leaf hadd with hk | hk
  · obtain ⟨p, hplane, hshow⟩ := hp n ((g.mem_loadNodes root).mpr ⟨hn.1, hk⟩)
    simp only [hk, hplane, Option.map_some, Option.getD_some]
    exact hshow r hr b hb
  · simp only [hk]
    exact BitPlane.shows_broadcast _ hr b hb

/-- So do the planes of the rows. -/
theorem rowInputs_sumIn (g : Graph) (root : NodeRef) (rows : ℕ → Graph.Row) {r : ℕ} (hr : r < 64) :
    ∀ c, g.SumIn root c → (g.kind c).isAdder = false → ∀ b < 64,
      (rowInputs g rows c b).getLsbD r = (g.slicedLeaf (rows r) c).getLsbD b :=
  fun _ hc hca _ hb => rowInputs_lane hc.2.resultKind hca hr hb

/-- The operands of a comparison of sums are values of the circuit. -/
theorem Graph.Compares.comparable {lesser greater : NodeRef} (h : g.Compares n lesser greater)
    (hn : n ∈ g.listing root) : Circuit.Comparable g (g.SumIn root) n := by
  intro _
  rcases h.operands with ⟨-, hl, hr⟩ | ⟨-, hl, hr⟩
  · exact ⟨_, _, hl, hr, ⟨mem_listing_left hn hl, h.greater⟩, mem_listing_right hn hr, h.lesser⟩
  · exact ⟨_, _, hl, hr, ⟨mem_listing_left hn hl, h.lesser⟩, mem_listing_right hn hr, h.greater⟩

theorem ordered_adderNodes (g : Graph) (root : NodeRef) :
    Circuit.Ordered g (g.adderNodes root) :=
  fun _ _ _ h => ⟨(adderNodes_split h).1, fun c hc => ((adderNodes_split h).2 c hc).2⟩

/-- **What a call leaves in the slots**: in every lane the value of the node, less what it
misses there. -/
theorem slots_show (hcall : Callable caller planes g root ms konst)
    (hp : Presents .bitSliced g root ms planes rows) (scratch : Scratch) :
    ∃ m S, caller.callExpr (g.expressionCode root ms konst) planes scratch = some (m, S) ∧
      ∀ n ∈ g.adderNodes root, g.IsSum n → ∀ r < 64,
        Shows (fun b => S (slotCell ms n b)) r
          (g.value (rows r) n - BitVec.ofInt 64 (g.laneBorrows r n)) := by
  obtain ⟨S, hrun, hsums, -⟩ := callExpr_returned scratch hcall
  refine ⟨_, S, hrun, fun n hn hsum r hr => ?_⟩
  have hinputs : ∀ c, g.SumIn root c → (g.kind c).isAdder = false → ∀ b < 64,
      (inputs g ms planes scratch c b).getLsbD r = (g.slicedLeaf (rows r) c).getLsbD b :=
    fun c hc hca b hb => inputs_sumIn hp hc hca hr hb
  have hshow := Circuit.table_shows (values_sumIn g root) hr (ordered_adderNodes g root)
    (fun n hn => (mem_adders.mp hn).2) hinputs (caller.regs .x2) (caller.regs .x3) hn
    ⟨(mem_adderNodes.mp hn).1, hsum⟩
  intro b hb
  rw [← laneValue_eq_value_sub hsum, ← hshow b hb]
  exact congrArg (BitVec.getLsbD · r) (hsums n hn b hb)

/-- A bit-sliced kernel can be given any 64 rows. -/
theorem presents_columns {heap : ℕ → Word} {st st' : CompileState} {code : List A64.Item}
    (hcompile : compileExpression heap g (some root) st = (some code, st'))
    (rows : ℕ → Graph.Row) :
    Presents .bitSliced g root st'.metas (presented .bitSliced g root rows) rows :=
  @presents_presented .bitSliced heap g root st st' code hcompile rows

/-- Two numbers that the same planes show in a lane are one. -/
theorem shows_unique {plane : ℕ → Word} {r : ℕ} {x y : Word} (hx : Shows plane r x)
    (hy : Shows plane r y) : x = y :=
  BitVec.eq_of_getLsbD_eq fun b hb => (hx b hb).symm.trans (hy b hb)

/-- An expression without differences misses nothing. -/
theorem borrows_of_additions (h : ∀ n ∈ g.adderNodes root, g.kind n = .add) (hn : g.SumIn root n) :
    g.borrows n = 0 := by
  obtain ⟨hmem, hsum⟩ := hn
  induction hsum with
  | load hk | const hk => exact borrows_of_not_adder (by rw [hk]; rfl)
  | adder hadd hl hr _ _ ihl ihr =>
    rw [borrows_of_add (h _ (mem_adderNodes.mpr ⟨hmem, hadd⟩)) hl hr,
      ihl (Graph.mem_listing_left hmem hl), ihr (Graph.mem_listing_right hmem hr)]
    rfl

/-- If no adder misses anything modulo `2 ^ 64`, then there are no differences: a difference
would miss one more than its operands do. -/
theorem additions_of_borrows (hsums : ∀ n ∈ g.adderNodes root, g.IsSum n)
    (h : ∀ n ∈ g.adderNodes root, BitVec.ofInt 64 (g.borrows n) = 0) :
    ∀ n ∈ g.adderNodes root, g.kind n = .add := by
  intro n hn
  obtain ⟨hmem, hadd⟩ := mem_adderNodes.mp hn
  by_contra hne
  have hk : g.kind n = .sub := (NodeKind.isAdder_iff.mp hadd).resolve_left hne
  have hoperand : ∀ c ∈ (g.node n).children, BitVec.ofInt 64 (g.borrows c) = 0 := by
    intro c hc
    by_cases hca : (g.kind c).isAdder = true
    · exact h c (mem_adderNodes.mpr ⟨(g.postOrder_listing root).closed hmem hc, hca⟩)
    · rw [borrows_of_not_adder (by simpa using hca)]
      rfl
  obtain ⟨l, r, hl, hr, -, -⟩ := (hsums n hn).operands hadd
  have hone := h n hn
  rw [borrows_of_sub hk hl hr, BitVec.ofInt_add, ofInt_sub,
    hoperand l (Node.mem_children.mpr (Or.inl hl)),
    hoperand r (Node.mem_children.mpr (Or.inr (Or.inl hr)))] at hone
  exact absurd hone (by decide)

/-- **Where the slots are right**: the scratchpad that a call returns shows the sums and
differences of all 64 rows exactly when the expression has no difference. -/
theorem slotsShow_iff {heap : ℕ → Word} {st st' : CompileState} {code : List A64.Item}
    (hcompile : compileExpression heap g (some root) st = (some code, st'))
    (hsums : ∀ n ∈ g.adderNodes root, g.IsSum n) (hpool : st'.pool ⊆ caller.pool)
    (hp : Presents .bitSliced g root st'.metas planes rows) (scratch : Scratch) :
    (∃ m S, caller.callExpr code planes scratch = some (m, S) ∧
      SlotsShow g root st'.metas S rows) ↔
    ∀ n ∈ g.adderNodes root, g.kind n = .add := by
  obtain ⟨konst, rfl, hcall⟩ := callable_of_compile hcompile hpool hp.isSome
  obtain ⟨m, S, hrun, hshow⟩ := slots_show hcall hp scratch
  constructor
  · rintro ⟨m', S', hrun', hslots⟩
    rw [hrun] at hrun'
    obtain ⟨-, rfl⟩ := Prod.mk.inj (Option.some.inj hrun')
    -- the second lane shows what is missing
    refine additions_of_borrows hsums fun n hn => ?_
    have hadd := (mem_adderNodes.mp hn).2
    have hlane := shows_unique (hshow n hn (hsums n hn) 1 (by omega)) (hslots n hn 1 (by omega))
    rw [combined_eq_value hadd, Graph.laneBorrows, if_neg (by omega)] at hlane
    exact sub_eq_self.mp hlane
  · intro hadds
    refine ⟨m, S, hrun, fun n hn r hr => ?_⟩
    have hzero : g.laneBorrows r n = 0 := by
      rw [Graph.laneBorrows, borrows_of_additions hadds ⟨(mem_adderNodes.mp hn).1, hsums n hn⟩,
        ite_self]
    have := hshow n hn (hsums n hn) r hr
    rw [hzero] at this
    rw [combined_eq_value (mem_adderNodes.mp hn).2]
    simpa using this

/-- `GT(a + a, a)` has no difference. -/
theorem slotsShow_iff_sum : ∃ code st' m S,
    compileExpression standardHeap (sumsGraph [97] 1) (some 2) ⟨fun _ => {}, []⟩ =
      (some code, st') ∧
    (Caller.standard [] (by decide)).callExpr code
      (presented .bitSliced (sumsGraph [97] 1) 2 fun _ _ => 7) (fun _ => 0) = some (m, S) ∧
    SlotsShow (sumsGraph [97] 1) 2 st'.metas S fun _ _ => 7 := by
  obtain ⟨konst, pool, hcompile, -⟩ := compileExpression_ok standardHeap (sumsGraph [97] 1) 2
    ⟨fun _ => {}, []⟩ (by decide) (by decide)
  have hpool : pool ⊆ (Caller.standard [] (by decide)).pool := by
    have hnil : pool = [] := congrArg (fun x => x.2.pool) hcompile.symm
    rw [hnil]
    exact List.nil_subset _
  have hsums : ∀ n ∈ (sumsGraph [97] 1).adderNodes 2, (sumsGraph [97] 1).IsSum n := by
    intro n hn
    obtain rfl : n = 1 := by simpa using (show n ∈ [1] from hn)
    exact .adder rfl rfl rfl (.load rfl) (.load rfl)
  obtain ⟨m, S, hrun, hshow⟩ := (slotsShow_iff hcompile hsums hpool
    (presents_columns hcompile fun _ _ => 7) fun _ => 0).mpr (by decide)
  exact ⟨_, _, m, S, hcompile, hrun, hshow⟩

/-- **A difference that is one short**: on 64 rows with `a = 7` and `b = 4`, the slot of
`a - b` in `LT(Sub(a, b), Const(5))` shows 2 in every lane but the first. -/
theorem slotsShow_difference : ¬ ∀ (heap : ℕ → Word) (g : Graph) (root : NodeRef)
    (st st' : CompileState) (code : List A64.Item) (caller : Caller) (planes : Planes)
    (rows : ℕ → Graph.Row) (scratch : Scratch),
    compileExpression heap g (some root) st = (some code, st') →
    (∀ n ∈ g.adderNodes root, g.IsSum n) → st'.pool ⊆ caller.pool →
    Presents .bitSliced g root st'.metas planes rows →
    ∃ m S, caller.callExpr code planes scratch = some (m, S) ∧
      SlotsShow g root st'.metas S rows := by
  intro h
  obtain ⟨konst, pool, hcompile, -⟩ := compileExpression_ok standardHeap
    (diffGraph (.ofString [97]) (.ofString [98]) 5) 4 ⟨fun _ => {}, []⟩ (by decide) (by decide)
  have hpool : pool ⊆ (Caller.standard [5] (by decide)).pool := by
    have hone : pool = [(5, standardHeap 0)] := congrArg (fun x => x.2.pool) hcompile.symm
    rw [hone]
    exact List.Subset.refl _
  have hsum : (diffGraph (.ofString [97]) (.ofString [98]) 5).IsSum 2 :=
    .adder rfl rfl rfl (.load rfl) (.load rfl)
  have hp := presents_columns hcompile fun _ f => if f = [97] then 7 else 4
  obtain ⟨m, S, hrun, hslots⟩ := h _ _ _ _ _ _ (Caller.standard [5] (by decide)) _ _ (fun _ => 0)
    hcompile (fun n hn => by
      obtain rfl : n = 2 := by simpa using (show n ∈ [2] from hn)
      exact hsum) hpool hp
  obtain ⟨konst', hcode, hcall⟩ := callable_of_compile hcompile hpool hp.isSome
  obtain ⟨m', S', hrun', hshow⟩ := slots_show hcall hp fun _ => 0
  rw [← hcode, hrun] at hrun'
  obtain ⟨-, rfl⟩ := Prod.mk.inj (Option.some.inj hrun')
  have hmem : (2 : NodeRef) ∈ (diffGraph (.ofString [97]) (.ofString [98]) 5).adderNodes 4 := by decide
  have hlane := shows_unique (hshow 2 hmem hsum 1 (by omega)) (hslots 2 hmem 1 (by omega))
  exact absurd hlane (by decide)

end Slots
end Jit
end ApexEngine
