import ApexEngine.BitPlane.Arith
import ApexEngine.Jit.Expression

/-!
# The circuit of a bit-sliced kernel

What the emitted code computes, without registers and addresses.  A `Wires` is the
state between two adders: the two operand planes, the carry of every adder and the
sum plane every adder has produced at the current bit.  `phase1` runs the adders
through the bits upwards, `phase2` the comparisons downwards, and `mask` is the
conjunction the kernel returns.

The circuit reads its leaves through `inp`: the planes of fields and constants, and
also those of shifts, whose slots nothing writes.  A wire that an operand emits no
load for keeps the plane it has, as the register does.

The second half reads the circuit lane by lane.  The planes of an adder whose
operands are values show a sum (`Summed`), and the mask has a lane exactly when the
comparisons with registers hold there (`mask_getLsbD`).  Other nodes may be listed
as well; nothing is said about them.
-/

namespace ApexEngine
namespace Jit
namespace Circuit

open A64 (Word)
open BitPlane (Comparison Shows)

/-! ## The circuit -/

/-- The state of the adders at one bit. -/
structure Wires where
  a : Word
  b : Word
  carry : NodeRef → Word
  out : NodeRef → Word

/-- The wires before the first bit: every carry is what its register is set to. -/
def start (g : Graph) (a b : Word) : Wires where
  a := a
  b := b
  carry n := if g.kind n = .add then 0 else 1
  out _ := 0

section Run

variable (g : Graph) (inp : NodeRef → ℕ → Word)

/-- The plane on a wire after the code for an operand, which keeps the plane `stale`
when there is nothing to load. -/
def operandPlane (k : ℕ) (out : NodeRef → Word) (operand : Option NodeRef) (stale : Word) : Word :=
  match operand with
  | none => stale
  | some n =>
      match g.kind n with
      | .load | .const | .lsl | .lsr => inp n k
      | .add | .sub => out n
      | _ => stale

/-- The second summand: a subtraction adds the complement. -/
def summand (n : NodeRef) (b : Word) : Word := if g.kind n = .add then b else ~~~b

/-- One adder at bit `k`. -/
def adderStep (k : ℕ) (w : Wires) (n : NodeRef) : Wires :=
  let a := operandPlane g inp k w.out (g.node n).left w.a
  let b := operandPlane g inp k w.out (g.node n).right w.b
  { a := a
    b := b
    carry := Function.update w.carry n (BitPlane.carryPlane a (summand g n b) (w.carry n))
    out := Function.update w.out n (BitPlane.sumPlane a (summand g n b) (w.carry n)) }

/-- The adders after `k` bits. -/
def phase1 (adders : List NodeRef) (w : Wires) : ℕ → Wires
  | 0 => w
  | k + 1 => adders.foldl (adderStep g inp k) (phase1 adders w k)

/-- The planes the adders leave in their slots. -/
def table (adders : List NodeRef) (w : Wires) (k : ℕ) : NodeRef → Word :=
  (phase1 g inp adders w (k + 1)).out

/-- The state of the comparisons at one bit. -/
structure Comparing where
  a : Word
  b : Word
  cmp : ℕ → Comparison 64

/-- One comparison at bit `k`, with the sums of that bit. -/
def compareStep (k : ℕ) (sums : NodeRef → Word) (s : Comparing) (p : NodeRef × ℕ) : Comparing :=
  let a := operandPlane g inp k sums (g.node p.1).left s.a
  let b := operandPlane g inp k sums (g.node p.1).right s.b
  match g.kind p.1 with
  | .lt => { a := a, b := b, cmp := Function.update s.cmp p.2 ((s.cmp p.2).step b a) }
  | .gt => { a := a, b := b, cmp := Function.update s.cmp p.2 ((s.cmp p.2).step a b) }
  | _ => s

/-- The comparisons through the bits below `k`. -/
def phase2 (comparisons : List NodeRef) (sums : ℕ → NodeRef → Word) : ℕ → Comparing → Comparing
  | 0, s => s
  | k + 1, s =>
      phase2 comparisons sums k (comparisons.zipIdx.foldl (compareStep g inp k (sums k)) s)

/-- The conjunction of the first `n` masks, or all ones without any. -/
def foldMask (n : ℕ) (cmp : ℕ → Comparison 64) : Word :=
  if 1 ≤ n then
    (List.range (n - 1)).foldl (fun m i => m &&& (cmp (i + 1)).gt) (cmp 0).gt
  else BitVec.allOnes 64

/-- The comparisons that have registers. -/
def compared (root : NodeRef) : List NodeRef := (collectComparisons g root).take 3

/-- The wires after the first loop, entered with planes on the two operand wires. -/
def added (root : NodeRef) (a b : Word) : Wires :=
  phase1 g inp (g.adderNodes root) (start g a b) 64

/-- The comparisons after the second loop. -/
def comparedAll (root : NodeRef) (a b : Word) : Comparing :=
  phase2 g inp (compared g root) (table g inp (g.adderNodes root) (start g a b)) 64
    ⟨(added g inp root a b).a, (added g inp root a b).b, fun _ => .start⟩

/-- The mask of the kernel, entered with planes on the two operand wires. -/
def mask (root : NodeRef) (a b : Word) : Word :=
  foldMask (compared g root).length (comparedAll g inp root a b).cmp

end Run

/-! ## What the circuit depends on -/

section Congr

variable {g : Graph} {inp inp' : NodeRef → ℕ → Word} {ns : List NodeRef} {k : ℕ}

/-- The planes agree that nodes of `ns` read at bit `k`. -/
def SameInputs (g : Graph) (inp inp' : NodeRef → ℕ → Word) (ns : List NodeRef) (k : ℕ) : Prop :=
  ∀ n ∈ ns, ∀ c ∈ (g.node n).children, (g.kind c).resultKind = .bitplane →
    (g.kind c).isAdder = false → inp c k = inp' c k

theorem operandPlane_congr {operand : Option NodeRef} (out : NodeRef → Word) (stale : Word)
    (h : ∀ c, operand = some c → (g.kind c).resultKind = .bitplane →
      (g.kind c).isAdder = false → inp c k = inp' c k) :
    operandPlane g inp k out operand stale = operandPlane g inp' k out operand stale := by
  cases operand with
  | none => rfl
  | some c =>
    have hc := h c rfl
    simp only [operandPlane]
    cases hk : g.kind c <;> simp only [hk] at hc ⊢
    all_goals exact hc rfl rfl

theorem SameInputs.left (h : SameInputs g inp inp' ns k) {n : NodeRef} (hn : n ∈ ns)
    (out : NodeRef → Word) (stale : Word) :
    operandPlane g inp k out (g.node n).left stale =
      operandPlane g inp' k out (g.node n).left stale :=
  operandPlane_congr out stale fun c hc => h n hn c (Node.mem_children.mpr (Or.inl hc))

theorem SameInputs.right (h : SameInputs g inp inp' ns k) {n : NodeRef} (hn : n ∈ ns)
    (out : NodeRef → Word) (stale : Word) :
    operandPlane g inp k out (g.node n).right stale =
      operandPlane g inp' k out (g.node n).right stale :=
  operandPlane_congr out stale fun c hc => h n hn c (Node.mem_children.mpr (Or.inr (Or.inl hc)))

theorem phase1_congr (w : Wires) (hk : k ≤ 64) (h : ∀ b < 64, SameInputs g inp inp' ns b) :
    phase1 g inp ns w k = phase1 g inp' ns w k := by
  induction k with
  | zero => rfl
  | succ k ih =>
    rw [phase1, phase1, ih (by omega)]
    refine List.foldl_ext _ _ _ fun w n hn => ?_
    have hb := h k (by omega)
    simp only [adderStep, hb.left hn, hb.right hn]

theorem phase2_congr {sums sums' : ℕ → NodeRef → Word} (s : Comparing) (hk : k ≤ 64)
    (h : ∀ b < 64, SameInputs g inp inp' ns b) (hsums : ∀ b < 64, sums b = sums' b) :
    phase2 g inp ns sums k s = phase2 g inp' ns sums' k s := by
  induction k generalizing s with
  | zero => rfl
  | succ k ih =>
    rw [phase2, phase2, ih _ (by omega), hsums k (by omega)]
    congr 1
    refine List.foldl_ext _ _ _ fun s p hp => ?_
    have hb := h k (by omega)
    have hn : p.1 ∈ ns := List.fst_mem_of_mem_zipIdx hp
    simp only [compareStep, hb.left hn, hb.right hn]

/-- **The mask depends on the planes** that the adders and the comparisons read. -/
theorem mask_congr {root : NodeRef} (hadd : ∀ b < 64, SameInputs g inp inp' (g.adderNodes root) b)
    (hcmp : ∀ b < 64, SameInputs g inp inp' (compared g root) b) (a b : Word) :
    mask g inp root a b = mask g inp' root a b := by
  have hadded : added g inp root a b = added g inp' root a b := phase1_congr _ le_rfl hadd
  have hsums : ∀ k < 64, table g inp (g.adderNodes root) (start g a b) k =
      table g inp' (g.adderNodes root) (start g a b) k := by
    intro k hk
    rw [table, table, phase1_congr _ (by omega) hadd]
  rw [mask, mask, comparedAll, comparedAll, hadded, phase2_congr _ le_rfl hcmp hsums]

end Congr

/-! ## The adders lane by lane -/

/-- Operands that are adders are listed before the adders they feed. -/
def Ordered (g : Graph) (ads : List NodeRef) : Prop :=
  ∀ p n q, ads = p ++ n :: q → n ∉ p ∧ ∀ c ∈ (g.node n).children, (g.kind c).isAdder = true → c ∈ p

/-- A set of nodes that are values, closed under the operands of adders. -/
structure Values (g : Graph) (good : NodeRef → Prop) : Prop where
  resultKind : ∀ n, good n → (g.kind n).resultKind = .bitplane
  operands : ∀ n, good n → (g.kind n).isAdder = true →
    ∃ left right, (g.node n).left = some left ∧ (g.node n).right = some right ∧
      good left ∧ good right

/-- The value of a node in a lane from those of its operands: an adder adds; the
carry a subtraction starts from is set in the first lane only.  The other values
come from `leaf`. -/
def laneStep (g : Graph) (leaf : NodeRef → Word) (lane : ℕ) (n : NodeRef)
    (left right _cond : Option Word) : Word :=
  match g.kind n with
  | .add => left.getD 0 + right.getD 0
  | .sub => left.getD 0 - right.getD 0 - (if lane = 0 then 0 else 1)
  | _ => leaf n

/-- The value of a node in a lane. -/
def laneValue (g : Graph) (leaf : NodeRef → Word) (lane : ℕ) : NodeRef → Word :=
  g.fold (laneStep g leaf lane)

section Lanes

variable {g : Graph} {inp : NodeRef → ℕ → Word} {leaf : NodeRef → Word} {r : ℕ}

theorem laneValue_of_not_adder {n : NodeRef} (h : (g.kind n).isAdder = false) :
    laneValue g leaf r n = leaf n := by
  rw [laneValue, Graph.fold_eq, laneStep]
  cases hk : g.kind n <;> simp_all [NodeKind.isAdder]

/-- The carry into the first bit of a lane. -/
def carryIn (g : Graph) (n : NodeRef) (lane : ℕ) : Bool :=
  if g.kind n = .add then false else decide (lane = 0)

/-- The second summand of a lane. -/
def summandValue (g : Graph) (n : NodeRef) (y : Word) : Word := if g.kind n = .add then y else ~~~y

/-- An adder's value is the sum of its summands and its first carry. -/
theorem laneValue_of_adder {n left right : NodeRef} (h : (g.kind n).isAdder = true)
    (hl : (g.node n).left = some left) (hr : (g.node n).right = some right) :
    laneValue g leaf r n =
      laneValue g leaf r left + summandValue g n (laneValue g leaf r right) +
        (BitVec.ofBool (carryIn g n r)).setWidth 64 := by
  rw [laneValue, Graph.fold_eq, hl, hr, laneStep, Option.map_some, Option.map_some,
    Option.getD_some, Option.getD_some]
  cases hk : g.kind n with
  | add =>
    simp only [summandValue, carryIn, hk, if_true]
    exact (BitPlane.add_add_false _ _).symm
  | sub =>
    simp only [summandValue, carryIn, hk, reduceCtorEq, if_false]
    by_cases h0 : r = 0
    · rw [decide_eq_true h0, BitPlane.add_not_add_one, if_pos h0]
      exact BitVec.sub_zero _
    · rw [decide_eq_false h0, BitPlane.add_not_add_zero, if_neg h0]
      rfl
  | _ => rw [hk] at h; exact absurd h (by decide)

/-- The adders in lane `r` at bit `k`, those in `p` done with it: the sums of values
show the bit of their values, and the carries are the carries of the sums. -/
structure Summed (g : Graph) (good : NodeRef → Prop) (leaf : NodeRef → Word) (r k : ℕ)
    (ads p : List NodeRef) (w : Wires) : Prop where
  out : ∀ n ∈ p, good n → (w.out n).getLsbD r = (laneValue g leaf r n).getLsbD k
  carry : ∀ n ∈ ads, good n → ∀ left right, (g.node n).left = some left →
    (g.node n).right = some right → (w.carry n).getLsbD r =
      BitVec.carry (if n ∈ p then k + 1 else k) (laneValue g leaf r left)
        (summandValue g n (laneValue g leaf r right)) (carryIn g n r)

/-- A value on a wire shows its lane, when leaves and sums do. -/
theorem operandPlane_lane {k : ℕ} {out : NodeRef → Word} {c : NodeRef} (stale : Word)
    (hc : (g.kind c).resultKind = .bitplane)
    (hleaf : (g.kind c).isAdder = false → (inp c k).getLsbD r = (leaf c).getLsbD k)
    (hout : (g.kind c).isAdder = true → (out c).getLsbD r = (laneValue g leaf r c).getLsbD k) :
    (operandPlane g inp k out (some c) stale).getLsbD r = (laneValue g leaf r c).getLsbD k := by
  by_cases hadd : (g.kind c).isAdder = true
  · rw [← hout hadd, operandPlane]
    cases hk : g.kind c <;> simp_all [NodeKind.isAdder, NodeKind.resultKind]
  · have hadd' : (g.kind c).isAdder = false := by simpa using hadd
    rw [laneValue_of_not_adder hadd', ← hleaf hadd', operandPlane]
    cases hk : g.kind c <;> simp_all [NodeKind.isAdder, NodeKind.resultKind]

theorem summand_lane (g : Graph) (n : NodeRef) {b y : Word} {k : ℕ} (hr : r < 64) (hk : k < 64)
    (h : b.getLsbD r = y.getLsbD k) :
    (summand g n b).getLsbD r = (summandValue g n y).getLsbD k := by
  unfold summand summandValue
  split
  · exact h
  · rw [BitVec.getLsbD_not, BitVec.getLsbD_not, h, decide_eq_true hr, decide_eq_true hk]

variable {good : NodeRef → Prop} {k : ℕ} {ads p : List NodeRef} {w : Wires} {n : NodeRef}

/-- **An adder** adds the bits of its operands and what it has carried. -/
theorem Summed.step (h : Summed g good leaf r k ads p w) (hvals : Values g good) (hr : r < 64)
    (hk : k < 64) (hn : n ∈ ads) (hnp : n ∉ p) (hadd : (g.kind n).isAdder = true)
    (hchild : ∀ c ∈ (g.node n).children, (g.kind c).isAdder = true → c ∈ p)
    (hinp : ∀ c, good c → (g.kind c).isAdder = false →
      (inp c k).getLsbD r = (leaf c).getLsbD k) :
    Summed g good leaf r k ads (p ++ [n]) (adderStep g inp k w n) := by
  -- what a value adder is fed in this lane
  have hfed : good n → ∃ left right, (g.node n).left = some left ∧
      (g.node n).right = some right ∧
      (operandPlane g inp k w.out (some left) w.a).getLsbD r =
        (laneValue g leaf r left).getLsbD k ∧
      (summand g n (operandPlane g inp k w.out (some right) w.b)).getLsbD r =
        (summandValue g n (laneValue g leaf r right)).getLsbD k ∧
      (w.carry n).getLsbD r = BitVec.carry k (laneValue g leaf r left)
        (summandValue g n (laneValue g leaf r right)) (carryIn g n r) := by
    intro hg
    obtain ⟨left, right, hleft, hright, hgl, hgr⟩ := hvals.operands n hg hadd
    have hcarry := h.carry n hn hg left right hleft hright
    rw [if_neg hnp] at hcarry
    refine ⟨left, right, hleft, hright, ?_, summand_lane g n hr hk ?_, hcarry⟩
    · exact operandPlane_lane _ (hvals.resultKind left hgl) (hinp left hgl) fun hca =>
        h.out left (hchild left (Node.mem_children.mpr (Or.inl hleft)) hca) hgl
    · exact operandPlane_lane _ (hvals.resultKind right hgr) (hinp right hgr) fun hca =>
        h.out right (hchild right (Node.mem_children.mpr (Or.inr (Or.inl hright))) hca) hgr
  constructor
  · intro m hm hg
    by_cases hmn : m = n
    · subst hmn
      obtain ⟨left, right, hleft, hright, ha, hb, hcarry⟩ := hfed hg
      simp only [adderStep, hleft, hright, Function.update_self]
      rw [BitPlane.sum_lane hk ha hb hcarry, laneValue_of_adder hadd hleft hright]
    · simp only [adderStep, Function.update_of_ne hmn]
      rw [List.mem_append, List.mem_singleton] at hm
      exact h.out m (hm.resolve_right hmn) hg
  · intro m hm hg l' r' hl' hr'
    by_cases hmn : m = n
    · subst hmn
      obtain ⟨left, right, hleft, hright, ha, hb, hcarry⟩ := hfed hg
      rw [hleft] at hl'
      rw [hright] at hr'
      obtain rfl := Option.some.inj hl'
      obtain rfl := Option.some.inj hr'
      rw [if_pos (by simp)]
      simp only [adderStep, hleft, hright, Function.update_self]
      exact BitPlane.carry_lane ha hb hcarry
    · simp only [adderStep, Function.update_of_ne hmn]
      have hiff : m ∈ p ++ [n] ↔ m ∈ p := by simp [hmn]
      simp only [hiff]
      exact h.carry m hm hg l' r' hl' hr'

/-- The remaining adders at one bit. -/
theorem Summed.steps {q : List NodeRef} (hvals : Values g good) (hr : r < 64) (hk : k < 64)
    (hord : Ordered g ads) (hadd : ∀ n ∈ ads, (g.kind n).isAdder = true)
    (hinp : ∀ c, good c → (g.kind c).isAdder = false →
      (inp c k).getLsbD r = (leaf c).getLsbD k)
    (hsplit : ads = p ++ q) (h : Summed g good leaf r k ads p w) :
    Summed g good leaf r k ads (p ++ q) (q.foldl (adderStep g inp k) w) := by
  induction q generalizing p w with
  | nil =>
    rw [List.append_nil]
    exact h
  | cons n q ih =>
    obtain ⟨hnp, hchild⟩ := hord p n q hsplit
    have hn : n ∈ ads := by
      rw [hsplit]
      simp
    have h₁ := ih (by rw [hsplit, List.append_assoc]; rfl)
      (h.step hvals hr hk hn hnp (hadd n hn) hchild hinp)
    rw [List.append_assoc] at h₁
    exact h₁

/-- The wires before the first bit. -/
theorem Summed.start (g : Graph) (good : NodeRef → Prop) (leaf : NodeRef → Word) (r : ℕ)
    (ads : List NodeRef) (a b : Word) : Summed g good leaf r 0 ads [] (start g a b) where
  out n hn := absurd hn (by simp)
  carry n _ _ left right _ _ := by
    rw [if_neg (by simp), BitVec.carry_zero, Circuit.start, carryIn]
    by_cases hk : g.kind n = .add
    · simp [hk]
    · have hone : (1 : Word).getLsbD r = decide (r = 0) := by
        rw [show (1 : Word) = 1#64 from rfl, BitVec.getLsbD_one]
        simp
      simp only [hk, if_false, hone]

/-- A bit that all adders are done with is the next one's start. -/
theorem Summed.next (h : Summed g good leaf r k ads ads w) :
    Summed g good leaf r (k + 1) ads [] w where
  out n hn := absurd hn (by simp)
  carry n hn hg left right hl hr := by
    rw [h.carry n hn hg left right hl hr, if_pos hn, if_neg (by simp)]

section Phases

variable (hvals : Values g good) (hr : r < 64) (hord : Ordered g ads)
  (hads : ∀ n ∈ ads, (g.kind n).isAdder = true)
  (hinp : ∀ c, good c → (g.kind c).isAdder = false →
    ∀ k < 64, (inp c k).getLsbD r = (leaf c).getLsbD k)

include hvals hr hord hads hinp

/-- The invariant of the first loop. -/
theorem summed_phase1 (a b : Word) (hk : k ≤ 64) :
    Summed g good leaf r k ads [] (phase1 g inp ads (start g a b) k) := by
  induction k with
  | zero => exact Summed.start g good leaf r ads a b
  | succ k ih =>
    have h := (ih (by omega)).steps hvals hr (by omega) hord hads
      (fun c hc hca => hinp c hc hca k (by omega)) (List.nil_append _).symm
    exact h.next

/-- **The sums.**  After the first loop the slot of an adder shows its value. -/
theorem table_shows (a b : Word) (hn : n ∈ ads) (hg : good n) :
    Shows (fun k => table g inp ads (start g a b) k n) r (laneValue g leaf r n) := by
  intro k hk
  have h := (summed_phase1 hvals hr hord hads hinp a b (Nat.le_of_lt hk)).steps hvals hr hk hord
    hads (fun c hc hca => hinp c hc hca k hk) (List.nil_append _).symm
  exact h.out n hn hg

end Phases

/-! ## The comparisons lane by lane -/

/-- The value of an operand. -/
def operandValue (g : Graph) (leaf : NodeRef → Word) (lane : ℕ) (operand : Option NodeRef) : Word :=
  (operand.map (laneValue g leaf lane)).getD 0

/-- What a comparison decides in a lane.  Only two kinds have code. -/
def verdict (g : Graph) (leaf : NodeRef → Word) (lane : ℕ) (n : NodeRef) : Bool :=
  match g.kind n with
  | .gt => decide (operandValue g leaf lane (g.node n).right <
      operandValue g leaf lane (g.node n).left)
  | .lt => decide (operandValue g leaf lane (g.node n).left <
      operandValue g leaf lane (g.node n).right)
  | _ => false

/-- The registers of a comparison with the bits from `k` up seen. -/
def Decided (g : Graph) (leaf : NodeRef → Word) (r : ℕ) (n : NodeRef) (s : Comparison 64)
    (k : ℕ) : Prop :=
  match g.kind n with
  | .gt => BitPlane.Compared s r (operandValue g leaf r (g.node n).left)
      (operandValue g leaf r (g.node n).right) k
  | .lt => BitPlane.Compared s r (operandValue g leaf r (g.node n).right)
      (operandValue g leaf r (g.node n).left) k
  | _ => s = .start

theorem Decided.start (hr : r < 64) (n : NodeRef) : Decided g leaf r n .start 64 := by
  unfold Decided
  split
  · exact BitPlane.Compared.start hr _ _
  · exact BitPlane.Compared.start hr _ _
  · rfl

theorem Decided.gt_eq {n : NodeRef} {s : Comparison 64} (h : Decided g leaf r n s 0) :
    s.gt.getLsbD r = verdict g leaf r n := by
  unfold Decided at h
  unfold verdict
  split at h
  · exact h.gt_eq
  · exact h.gt_eq
  · rw [h]
    exact BitVec.getLsbD_zero

/-- The operands of a comparison that has code are values. -/
def Comparable (g : Graph) (good : NodeRef → Prop) (n : NodeRef) : Prop :=
  (g.kind n = .gt ∨ g.kind n = .lt) → ∃ left right, (g.node n).left = some left ∧
    (g.node n).right = some right ∧ good left ∧ good right

section Compare

variable {sums : NodeRef → Word}

/-- **One comparison.**  Its own registers take a step. -/
theorem compareStep_decided (hvals : Values g good) (hr : r < 64) {i : ℕ} {s : Comparing}
    (hcmp : Comparable g good n)
    (hinp : ∀ c, good c → (g.kind c).isAdder = false → (inp c k).getLsbD r = (leaf c).getLsbD k)
    (hsums : ∀ c, good c → (g.kind c).isAdder = true →
      (sums c).getLsbD r = (laneValue g leaf r c).getLsbD k)
    (h : Decided g leaf r n (s.cmp i) (k + 1)) :
    Decided g leaf r n ((compareStep g inp k sums s (n, i)).cmp i) k := by
  have hwires : (g.kind n = .gt ∨ g.kind n = .lt) →
      (operandPlane g inp k sums (g.node n).left s.a).getLsbD r =
          (operandValue g leaf r (g.node n).left).getLsbD k ∧
        (operandPlane g inp k sums (g.node n).right s.b).getLsbD r =
          (operandValue g leaf r (g.node n).right).getLsbD k := by
    intro hk
    obtain ⟨left, right, hleft, hright, hgl, hgr⟩ := hcmp hk
    rw [hleft, hright]
    exact ⟨operandPlane_lane _ (hvals.resultKind left hgl) (hinp left hgl) (hsums left hgl),
      operandPlane_lane _ (hvals.resultKind right hgr) (hinp right hgr) (hsums right hgr)⟩
  unfold Decided at h ⊢
  split at h
  · rename_i hk
    obtain ⟨ha, hb⟩ := hwires (Or.inl hk)
    simp only [hk, compareStep, Function.update_self]
    exact h.step hr ha hb
  · rename_i hk
    obtain ⟨ha, hb⟩ := hwires (Or.inr hk)
    simp only [hk, compareStep, Function.update_self]
    exact h.step hr hb ha
  · rename_i hgt hlt
    have hsame : (compareStep g inp k sums s (n, i)).cmp i = s.cmp i := by
      unfold compareStep
      split
      · exact absurd ‹_› hlt
      · exact absurd ‹_› hgt
      · rfl
    rw [hsame, h]

theorem compareStep_of_ne {n : NodeRef} {i j : ℕ} (hij : j ≠ i) (s : Comparing) :
    (compareStep g inp k sums s (n, i)).cmp j = s.cmp j := by
  unfold compareStep
  split
  · exact Function.update_of_ne hij _ _
  · exact Function.update_of_ne hij _ _
  · rfl

/-- The comparisons of a list numbered from `m` leave the lower ones alone. -/
theorem foldl_compareStep_of_lt {cmps : List NodeRef} {m j : ℕ} (hj : j < m) (s : Comparing) :
    ((cmps.zipIdx m).foldl (compareStep g inp k sums) s).cmp j = s.cmp j := by
  induction cmps generalizing m s with
  | nil => rfl
  | cons n cmps ih =>
    rw [List.zipIdx_cons, List.foldl_cons, ih (by omega), compareStep_of_ne (by omega)]

/-- Every comparison takes the plane of one bit into account. -/
theorem foldl_compareStep_decided (hvals : Values g good) (hr : r < 64) {cmps : List NodeRef}
    {m : ℕ} {s : Comparing} (hcmp : ∀ n ∈ cmps, Comparable g good n)
    (hinp : ∀ c, good c → (g.kind c).isAdder = false → (inp c k).getLsbD r = (leaf c).getLsbD k)
    (hsums : ∀ c, good c → (g.kind c).isAdder = true →
      (sums c).getLsbD r = (laneValue g leaf r c).getLsbD k)
    (h : ∀ p ∈ cmps.zipIdx m, Decided g leaf r p.1 (s.cmp p.2) (k + 1)) :
    ∀ p ∈ cmps.zipIdx m,
      Decided g leaf r p.1 (((cmps.zipIdx m).foldl (compareStep g inp k sums) s).cmp p.2) k := by
  induction cmps generalizing m s with
  | nil => exact fun p hp => absurd hp (by simp)
  | cons n cmps ih =>
    rw [List.zipIdx_cons] at h ⊢
    rw [List.foldl_cons]
    intro p hp
    rcases List.mem_cons.mp hp with rfl | hp
    · rw [foldl_compareStep_of_lt (by simp)]
      exact compareStep_decided hvals hr (hcmp n (by simp)) hinp hsums (h (n, m) (by simp))
    · refine ih (fun q hq => hcmp q (by simp [hq])) ?_ p hp
      intro q hq
      have hqm : m + 1 ≤ q.2 := List.le_snd_of_mem_zipIdx hq
      rw [compareStep_of_ne (by omega)]
      exact h q (List.mem_cons_of_mem _ hq)

/-- The second loop decides each comparison by the planes that it has seen. -/
theorem phase2_decided (hvals : Values g good) (hr : r < 64) {cmps : List NodeRef}
    {sums : ℕ → NodeRef → Word} {s : Comparing} (hk : k ≤ 64)
    (hcmp : ∀ n ∈ cmps, Comparable g good n)
    (hinp : ∀ c, good c → (g.kind c).isAdder = false →
      ∀ b < 64, (inp c b).getLsbD r = (leaf c).getLsbD b)
    (hsums : ∀ c, good c → (g.kind c).isAdder = true →
      Shows (fun b => sums b c) r (laneValue g leaf r c))
    (h : ∀ p ∈ cmps.zipIdx, Decided g leaf r p.1 (s.cmp p.2) k) :
    ∀ p ∈ cmps.zipIdx, Decided g leaf r p.1 ((phase2 g inp cmps sums k s).cmp p.2) 0 := by
  induction k generalizing s with
  | zero => exact h
  | succ k ih =>
    exact ih (by omega) (foldl_compareStep_decided hvals hr hcmp
      (fun c hc hca => hinp c hc hca k (by omega)) (fun c hc hca => hsums c hc hca k (by omega)) h)

end Compare

/-! ## The mask lane by lane -/

theorem foldl_and_getLsbD (cmp : ℕ → Comparison 64) (n : ℕ) (m : Word) :
    ((List.range n).foldl (fun m i => m &&& (cmp (i + 1)).gt) m).getLsbD r =
      (m.getLsbD r && decide (∀ i < n, (cmp (i + 1)).gt.getLsbD r = true)) := by
  induction n with
  | zero => simp
  | succ n ih =>
    rw [List.range_succ, List.foldl_append, List.foldl_cons, List.foldl_nil, BitVec.getLsbD_and,
      ih, Bool.and_assoc]
    congr 1
    rw [Bool.eq_iff_iff]
    simp only [Bool.and_eq_true, decide_eq_true_iff, Nat.lt_succ_iff_lt_or_eq]
    constructor
    · rintro ⟨hall, hn⟩ i (hi | rfl)
      · exact hall i hi
      · exact hn
    · exact fun hall => ⟨fun i hi => hall i (Or.inl hi), hall n (Or.inr rfl)⟩

/-- The conjunction has a lane when every mask has it. -/
theorem foldMask_getLsbD (hr : r < 64) (n : ℕ) (cmp : ℕ → Comparison 64) :
    (foldMask n cmp).getLsbD r = decide (∀ i < n, (cmp i).gt.getLsbD r = true) := by
  unfold foldMask
  cases n with
  | zero =>
    rw [if_neg (by omega), BitVec.getLsbD_allOnes]
    simp [hr]
  | succ n =>
    rw [if_pos (by omega), Nat.add_sub_cancel, foldl_and_getLsbD, Bool.eq_iff_iff]
    simp only [Bool.and_eq_true, decide_eq_true_iff]
    constructor
    · rintro ⟨h0, hall⟩ i hi
      cases i with
      | zero => exact h0
      | succ i => exact hall i (by omega)
    · exact fun hall => ⟨hall 0 (by omega), fun i hi => hall (i + 1) (by omega)⟩

/-- **The mask of the circuit.**  A lane is set when the comparisons that have
registers decide so on the lane's values, whatever was on the wires. -/
theorem mask_getLsbD {root : NodeRef} (hr : r < 64) (hvals : Values g good)
    (hord : Ordered g (g.adderNodes root))
    (hlisted : ∀ n, good n → (g.kind n).isAdder = true → n ∈ g.adderNodes root)
    (hcmp : ∀ n ∈ compared g root, Comparable g good n)
    (hinp : ∀ c, good c → (g.kind c).isAdder = false →
      ∀ b < 64, (inp c b).getLsbD r = (leaf c).getLsbD b) (a b : Word) :
    (mask g inp root a b).getLsbD r = (compared g root).all (verdict g leaf r) := by
  have hads : ∀ n ∈ g.adderNodes root, (g.kind n).isAdder = true := fun n hn => (mem_adders.mp hn).2
  have hdec := phase2_decided (s := ⟨(added g inp root a b).a, (added g inp root a b).b,
      fun _ => .start⟩) hvals hr le_rfl hcmp hinp
    (fun c hc hca => table_shows hvals hr hord hads hinp a b (hlisted c hc hca) hc)
    fun p _ => Decided.start hr p.1
  rw [mask, foldMask_getLsbD hr, Bool.eq_iff_iff, decide_eq_true_iff, List.all_eq_true]
  constructor
  · intro hall n hn
    obtain ⟨i, hi, rfl⟩ := List.getElem_of_mem hn
    have hmem : ((compared g root)[i], i) ∈ (compared g root).zipIdx := by
      rw [List.mk_mem_zipIdx_iff_getElem?]
      exact List.getElem?_eq_getElem hi
    rw [← (hdec _ hmem).gt_eq]
    exact hall i hi
  · intro hall i hi
    have hmem : ((compared g root)[i], i) ∈ (compared g root).zipIdx := by
      rw [List.mk_mem_zipIdx_iff_getElem?]
      exact List.getElem?_eq_getElem hi
    rw [comparedAll, (hdec _ hmem).gt_eq]
    exact hall _ (List.getElem_mem hi)

end Lanes
end Circuit
end Jit
end ApexEngine
