import ApexEngine.Jit.Modes

/-!
# Rows and their neighbours

A kernel returns one bit for each of 64 rows, and the bit of a row should depend on this
row alone (`RowsIsolated`).

The bit-sliced loops have no instruction that mixes lanes, so their kernels always isolate
the rows.  The scalar kernel shifts the word of a row into the mask by the number of the
row, taking it to be zero or one.  It is not always: a negation and a selection have no
code and keep the word of the node listed before them.  In an expression whose nodes have
no other operands than their kinds ask for (`Graph.Tidy`) this node is a condition, and
the word is at most one (`scalarValue_le_one_of_tidy`).  But the nodes of a pool keep the
pointers that were left in them, the analysis follows these as well, and then the node
before a negation may be a field, whose upper bits go to the rows that follow.

`Contained` says which words do no harm, and `rowsIsolated_iff` that these are exactly the
expressions whose scalar kernels isolate the rows.
-/

namespace ApexEngine
namespace Jit

open A64 (Word)

/-- Bit `k` of the word a scalar kernel computes for a row. -/
def Graph.wordBit (g : Graph) (row : Graph.Row) (root : NodeRef) (k : ℕ) : Bool :=
  (g.scalarValue row root).getLsbD k

/-- Words that change no other row: at most one on every row, or with the last bit set on
every row, or with the lowest of the other bits that is ever set set on every row. -/
def Contained (g : Graph) (root : NodeRef) : Prop :=
  (∀ row k, 1 ≤ k → g.wordBit row root k = false) ∨ (∀ row, g.wordBit row root 0 = true) ∨
    ∃ k, 1 ≤ k ∧ (∀ row, g.wordBit row root k = true) ∧
      ∀ row j, 1 ≤ j → j < k → g.wordBit row root j = false

/-! ## Nodes without other operands -/

/-- The nodes of an expression point to what their kinds ask for, and to nothing else. -/
structure Graph.Tidy (g : Graph) (root : NodeRef) : Prop where
  left : ∀ n ∈ g.listing root, (g.kind n).leftKind = none → (g.node n).left = none
  right : ∀ n ∈ g.listing root, (g.kind n).rightKind = none → (g.node n).right = none
  cond : ∀ n ∈ g.listing root, (g.kind n).condKind = none → (g.node n).cond = none

/-- The conditions without code. -/
def NodeKind.isUntranslated : NodeKind → Bool
  | .not | .select => true
  | _ => false

/-- A list that ends with a condition, if it has an end. -/
def EndsWithMask (g : Graph) (l : List NodeRef) : Prop :=
  ∀ p m, l = p ++ [m] → (g.kind m).resultKind = .bitmask

/-- Conditions without code follow conditions. -/
def FollowMasks (g : Graph) (l : List NodeRef) : Prop :=
  ∀ p n q, l = p ++ n :: q → (g.kind n).isUntranslated = true → p ≠ [] ∧ EndsWithMask g p

section Order

variable {g : Graph} {root n : NodeRef} {l : List NodeRef} {metas : NodeMetas}

theorem EndsWithMask.snoc (hn : (g.kind n).resultKind = .bitmask) : EndsWithMask g (l ++ [n]) := by
  intro p m h
  obtain ⟨-, hnm⟩ := List.append_inj' h rfl
  obtain rfl : n = m := by simpa using hnm
  exact hn

theorem FollowMasks.snoc (h : FollowMasks g l)
    (hn : (g.kind n).isUntranslated = true → l ≠ [] ∧ EndsWithMask g l) :
    FollowMasks g (l ++ [n]) := by
  intro p m q hsplit hm
  rcases List.eq_nil_or_concat q with rfl | ⟨q', x, rfl⟩
  · obtain ⟨rfl, hnm⟩ := List.append_inj' hsplit rfl
    obtain rfl : n = m := by simpa using hnm
    exact hn hm
  · rw [List.concat_eq_append, ← List.cons_append, ← List.append_assoc] at hsplit
    obtain ⟨rfl, -⟩ := List.append_inj' hsplit rfl
    exact h p m q' rfl hm

/-- A node asks for conditions only, or for none. -/
theorem NodeKind.asks (k : NodeKind) :
    (k.leftKind ≠ some .bitmask ∧ k.rightKind ≠ some .bitmask ∧ k.condKind ≠ some .bitmask ∧
        k.isUntranslated = false) ∨
      (k.leftKind = some .bitmask ∧ k.rightKind ≠ some .bitplane ∧ k.condKind ≠ some .bitplane ∧
        k.resultKind = .bitmask) := by
  cases k <;> simp [leftKind, rightKind, condKind, isUntranslated, resultKind]

/-- In a tidy expression the operands that are there are those that are asked for. -/
theorem Graph.Gives.kind_eq {operand : Option NodeRef} {want : Option ResultKind}
    (h : g.Gives operand want) (hnone : want = none → operand = none) {c : NodeRef}
    (hc : operand = some c) : want = some (g.kind c).resultKind := by
  cases want with
  | none => exact absurd (hc.symm.trans (hnone rfl)) (by simp)
  | some kind =>
    obtain ⟨c', hc', hk⟩ := h kind rfl
    obtain rfl : c = c' := Option.some.inj (hc.symm.trans hc')
    rw [hk]

/-- Where no condition is asked for, the operand is none. -/
theorem Graph.Gives.not_mask {operand : Option NodeRef} {want : Option ResultKind}
    (h : g.Gives operand want) (hnone : want = none → operand = none)
    (hne : want ≠ some .bitmask) :
    ¬ ∃ c, operand = some c ∧ (g.kind c).resultKind = .bitmask := by
  rintro ⟨c, hc, hmask⟩
  exact hne (hmask ▸ h.kind_eq hnone hc)

/-- Where no value is asked for, the operand is a condition. -/
theorem Graph.Gives.mask {operand : Option NodeRef} {want : Option ResultKind}
    (h : g.Gives operand want) (hnone : want = none → operand = none)
    (hne : want ≠ some .bitplane) :
    ∀ c, operand = some c → (g.kind c).resultKind = .bitmask := by
  intro c hc
  have hk := h.kind_eq hnone hc
  cases hkind : (g.kind c).resultKind with
  | bitplane => exact absurd (hkind ▸ hk) hne
  | bitmask => rfl

/-- What a walk keeps: conditions without code follow conditions, and after a condition, or
after nothing, a condition is at the end. -/
def KeepsMasks (g : Graph) (root : NodeRef) (o : Option NodeRef) (s t : ExpressionAnalyzer) :
    Prop :=
  (∀ c, o = some c → c ∈ g.listing root) → FollowMasks g s.allNodes →
    ((∃ c, o = some c ∧ (g.kind c).resultKind = .bitmask) → EndsWithMask g s.allNodes) →
    FollowMasks g t.allNodes ∧
      ((∀ c, o = some c → (g.kind c).resultKind = .bitmask) → EndsWithMask g s.allNodes →
        EndsWithMask g t.allNodes)

/-- **The visit of a node** of an expression of tidy, typed nodes: the subtree of a value has
no conditions, and that of a condition leaves a condition at the end.  So a negation is
listed right after a condition, and so is a selection. -/
theorem keepsMasks_visit (hw : g.WellTyped root) (ht : g.Tidy root)
    {s s₁ s₂ s₃ : ExpressionAnalyzer} (hv : Visiting g metas n s s₁ s₂ s₃)
    (hleft : KeepsMasks g root (g.node n).left s s₁)
    (hright : KeepsMasks g root (g.node n).right s₁ s₂)
    (hcond : KeepsMasks g root (g.node n).cond s₂ s₃) :
    KeepsMasks g root (some n) s (s₃.visit g n) := by
  intro ho hfollow hend
  have hn := ho n rfl
  have htyped := hw.node n hn
  have hl := hleft (fun _ => Graph.mem_listing_left hn) hfollow
  have hr := hright fun _ => Graph.mem_listing_right hn
  have hc := hcond fun _ => Graph.mem_listing_cond hn
  have hlnone := ht.left n hn
  have hrnone := ht.right n hn
  have hcnone := ht.cond n hn
  rcases NodeKind.asks (g.kind n) with ⟨hnl, hnr, hnc, hcode⟩ | ⟨hml, hmr, hmc, hmask⟩
  · -- no operand is a condition
    obtain ⟨hf₁, -⟩ := hl fun h => absurd h (htyped.left.not_mask hlnone hnl)
    obtain ⟨hf₂, -⟩ := hr hf₁ fun h => absurd h (htyped.right.not_mask hrnone hnr)
    obtain ⟨hf₃, -⟩ := hc hf₂ fun h => absurd h (htyped.cond.not_mask hcnone hnc)
    refine ⟨hf₃.snoc fun h => absurd (hcode.symm.trans h) (by simp), fun hmask _ => ?_⟩
    exact EndsWithMask.snoc (hmask n rfl)
  · -- all operands are conditions
    have he := hend ⟨n, rfl, hmask⟩
    obtain ⟨hf₁, he₁⟩ := hl fun _ => he
    have he₁ := he₁ (htyped.left.mask hlnone (by simp [hml])) he
    obtain ⟨hf₂, he₂⟩ := hr hf₁ fun _ => he₁
    have he₂ := he₂ (htyped.right.mask hrnone hmr) he₁
    obtain ⟨hf₃, he₃⟩ := hc hf₂ fun _ => he₂
    have he₃ := he₃ (htyped.cond.mask hcnone hmc) he₂
    refine ⟨hf₃.snoc fun _ => ⟨?_, he₃⟩, fun _ _ => EndsWithMask.snoc hmask⟩
    obtain ⟨c, hleft, -⟩ := htyped.left .bitmask hml
    exact List.ne_nil_of_mem
      (hv.left.children_mem hv.right hv.cond c (Node.mem_children.mpr (Or.inl hleft)))

/-- **What one call of the analysis keeps.** -/
theorem keepsMasks_analyzeAux (hw : g.WellTyped root) (ht : g.Tidy root) {fuel : ℕ}
    {o : Option NodeRef} {s : ExpressionAnalyzer} (hs : Analyzed g metas s)
    (ho : ∀ c, o = some c → g.rank c < fuel) :
    KeepsMasks g root o s (ExpressionAnalyzer.analyzeAux g fuel o s) :=
  analyzeAux_induction (P := KeepsMasks g root) (fun _ _ hfollow _ => ⟨hfollow, fun _ h => h⟩)
    (fun _ _ _ hfollow _ => ⟨hfollow, fun _ h => h⟩) (keepsMasks_visit hw ht) hs ho

/-- In a tidy expression a condition without code is listed right after a condition. -/
theorem followMasks_listing (hw : g.WellTyped root) (ht : g.Tidy root) :
    FollowMasks g (g.listing root) := by
  have hnil : ∀ {p : List NodeRef} {m : NodeRef} {q : List NodeRef}, ([] : List NodeRef) ≠
      p ++ m :: q := by simp
  refine (keepsMasks_analyzeAux hw ht (Analyzed.init _) (fun c hc => ?_) (fun c hc => ?_)
    (fun p n q h => absurd h hnil) fun _ p m h => absurd h hnil).1
  · rw [← Option.some.inj hc]
    exact Nat.lt_succ_self _
  · rw [← Option.some.inj hc]
    exact g.root_mem_listing root

/-- **The word of a tidy expression** is at most one. -/
theorem scalarValue_le_one_of_tidy (hw : g.WellTyped root) (ht : g.Tidy root) {row : Graph.Row} :
    (g.scalarValue row root).toNat ≤ 1 := by
  refine scalarValue_induction (C := fun n w => (g.kind n).resultKind = .bitmask → w.toNat ≤ 1) ?_
    hw.mask
  intro p n q s hsplit h hcarried hmask
  have hpost := g.postOrder_listing root
  rw [hsplit] at hpost
  have hn : n ∈ g.listing root := by
    rw [hsplit]
    simp
  -- operands that are conditions are fetched from their cells
  have hfetch : ∀ c, (g.kind c).resultKind = .bitmask → c ∈ (g.node n).children → ∀ stale,
      (Scalar.fetch g (g.rowLeaf row) s.cell (some c) stale).toNat ≤ 1 := by
    intro c hck hc stale
    rw [Scalar.fetch_inner ?_]
    · exact h c (hpost.children_mem c hc) hck
    · rintro (hload | hconst)
      · rw [hload] at hck
        exact absurd hck (by simp [NodeKind.resultKind])
      · rw [hconst] at hck
        exact absurd hck (by simp [NodeKind.resultKind])
  simp only [Scalar.evalNode, Scalar.result]
  cases hk : g.kind n with
  | gt | lt | eq => simp only; split <;> decide
  | and =>
    obtain ⟨l, hl, -, hlk⟩ := hw.left hn (by rw [hk]; rfl)
    simp only [hl]
    rw [BitVec.toNat_and]
    exact Nat.and_le_left.trans (hfetch l hlk (Node.mem_children.mpr (Or.inl hl)) _)
  | or =>
    obtain ⟨l, hl, -, hlk⟩ := hw.left hn (by rw [hk]; rfl)
    obtain ⟨r, hr, -, hrk⟩ := hw.right hn (by rw [hk]; rfl)
    have hleft := hfetch l hlk (Node.mem_children.mpr (Or.inl hl)) s.left
    have hright := hfetch r hrk (Node.mem_children.mpr (Or.inr (Or.inl hr))) s.right
    simp only [hl, hr]
    rw [BitVec.toNat_or]
    exact Nat.le_of_lt_succ (Nat.or_lt_two_pow (n := 1) (by omega) (by omega))
  | not | select =>
    obtain ⟨hne, hlast⟩ := followMasks_listing hw ht p n q hsplit (by rw [hk]; rfl)
    rcases List.eq_nil_or_concat p with rfl | ⟨p', m, rfl⟩
    · exact absurd rfl hne
    · rw [List.concat_eq_append] at h hlast hcarried
      rw [hcarried p' m rfl]
      exact h m (by simp) (hlast p' m rfl)
  | _ => exact absurd hmask (by rw [hk]; decide)

/-- So the words of tidy expressions are contained. -/
theorem contained_of_tidy (hw : g.WellTyped root) (ht : g.Tidy root) : Contained g root := by
  refine Or.inl fun row k hk => ?_
  have hlt : (g.scalarValue row root).toNat < 2 ^ k :=
    Nat.lt_of_le_of_lt (scalarValue_le_one_of_tidy hw ht) (Nat.one_lt_two_pow (by omega))
  rw [Graph.wordBit, ← BitVec.testBit_toNat]
  exact Nat.testBit_lt_two_pow hlt

end Order

section Lanes

variable {g : Graph} {root : NodeRef} {rows rows' : ℕ → Graph.Row} {r : ℕ}

/-- A bit of a scalar mask: some row at most `r` has a bit that is shifted there. -/
theorem laneVerdict_scalar_iff_wordBit (hr : r < 64) : laneVerdict g rows .scalar root r = true ↔
    ∃ k ≤ r, g.wordBit (rows (r - k)) root k = true := by
  rw [laneVerdict_scalar_iff]
  constructor
  · rintro ⟨j, -, hbit⟩
    rw [BitVec.getLsbD_shiftLeft] at hbit
    have hjr : j ≤ r := by
      by_contra hlt
      simp [show r < j by omega] at hbit
    refine ⟨r - j, Nat.sub_le r j, ?_⟩
    rw [Nat.sub_sub_self hjr]
    exact (Bool.and_eq_true_iff.mp hbit).2
  · rintro ⟨k, hk, hbit⟩
    refine ⟨r - k, by omega, ?_⟩
    rw [BitVec.getLsbD_shiftLeft, decide_eq_true hr, decide_eq_false (by omega),
      Nat.sub_sub_self hk]
    exact hbit

/-- The bit of a row whose own word does not decide it comes from the rows before. -/
theorem Contained.laneVerdict_eq (h : Contained g root) (hr : r < 64) (hsame : rows r = rows' r) :
    laneVerdict g rows .scalar root r = laneVerdict g rows' .scalar root r := by
  -- where the higher bits up to `r` are clear, the row decides by its last bit
  have hlow : (∀ row k, 1 ≤ k → k ≤ r → g.wordBit row root k = false) →
      ∀ rows : ℕ → Graph.Row, laneVerdict g rows .scalar root r = g.wordBit (rows r) root 0 := by
    intro hclear rows
    rw [Bool.eq_iff_iff, laneVerdict_scalar_iff_wordBit hr]
    constructor
    · rintro ⟨k, hk, hbit⟩
      rcases Nat.eq_zero_or_pos k with rfl | hpos
      · exact hbit
      · rw [hclear _ k hpos hk] at hbit
        exact absurd hbit (by simp)
    · exact fun hbit => ⟨0, Nat.zero_le r, hbit⟩
  -- where a bit at most `r` is always set, every row is accepted
  have hall : ∀ k ≤ r, (∀ row, g.wordBit row root k = true) → ∀ rows : ℕ → Graph.Row,
      laneVerdict g rows .scalar root r = true := fun k hk hset rows =>
    (laneVerdict_scalar_iff_wordBit hr).mpr ⟨k, hk, hset _⟩
  rcases h with hclear | hset | ⟨k, hk, hset, hclear⟩
  · have hlow := hlow fun row k hk _ => hclear row k hk
    rw [hlow rows, hlow rows', hsame]
  · rw [hall 0 (Nat.zero_le r) hset rows, hall 0 (Nat.zero_le r) hset rows']
  · by_cases hkr : k ≤ r
    · rw [hall k hkr hset rows, hall k hkr hset rows']
    · have hlow := hlow fun row j hj hjr => hclear row j hj (by omega)
      rw [hlow rows, hlow rows', hsame]

/-- A word that is not contained gives two blocks of rows that differ in another row only
and are decided differently. -/
theorem contained_of_laneVerdict
    (h : ∀ (rows rows' : ℕ → Graph.Row), ∀ r < 64, rows r = rows' r →
      laneVerdict g rows .scalar root r = laneVerdict g rows' .scalar root r) :
    Contained g root := by
  by_cases hzero : ∀ row, g.wordBit row root 0 = true
  · exact Or.inr (Or.inl hzero)
  by_cases hclear : ∀ row k, 1 ≤ k → g.wordBit row root k = false
  · exact Or.inl hclear
  obtain ⟨x, hx⟩ : ∃ x, g.wordBit x root 0 = false := by simpa using hzero
  have hex : ∃ k, 1 ≤ k ∧ ∃ row, g.wordBit row root k = true := by
    simp only [not_forall, Bool.not_eq_false] at hclear
    obtain ⟨row, k, hk, hbit⟩ := hclear
    exact ⟨k, hk, row, hbit⟩
  classical
  -- the lowest bit above the last that some row has
  obtain ⟨hk, y, hy⟩ := Nat.find_spec hex
  have hmin : ∀ row j, 1 ≤ j → j < Nat.find hex → g.wordBit row root j = false := by
    intro row j hj hlt
    by_contra hbit
    exact Nat.find_min hex hlt ⟨hj, row, by simpa using hbit⟩
  generalize Nat.find hex = k at hk hy hmin
  have hk64 : k < 64 := by
    by_contra hge
    rw [Graph.wordBit, BitVec.getLsbD_of_ge _ _ (by omega)] at hy
    exact absurd hy (by simp)
  refine Or.inr (Or.inr ⟨k, hk, fun z => ?_, hmin⟩)
  -- the first row of the block is `y` or `z`, and row `k`, like all others, is `x`
  have hblock : ∀ w : Graph.Row, laneVerdict g (Function.update (fun _ => x) 0 w) .scalar root k =
      g.wordBit w root k := by
    intro w
    rw [Bool.eq_iff_iff, laneVerdict_scalar_iff_wordBit hk64]
    constructor
    · rintro ⟨j, hj, hbit⟩
      rcases Nat.lt_or_ge j k with hlt | hge
      · rw [Function.update_of_ne (by omega)] at hbit
        rcases Nat.eq_zero_or_pos j with rfl | hpos
        · rw [hx] at hbit
          exact absurd hbit (by simp)
        · rw [hmin x j hpos hlt] at hbit
          exact absurd hbit (by simp)
      · obtain rfl : j = k := by omega
        rw [Nat.sub_self, Function.update_self] at hbit
        exact hbit
    · intro hbit
      refine ⟨k, le_rfl, ?_⟩
      rw [Nat.sub_self, Function.update_self]
      exact hbit
  rw [← hblock z, ← hy, ← hblock y]
  refine h _ _ k hk64 ?_
  rw [Function.update_of_ne (by omega), Function.update_of_ne (by omega)]

end Lanes

/-! ## Calls -/

/-- Rows with the same fields, as far as an expression names them. -/
def SameFields (g : Graph) (root : NodeRef) (x y : Graph.Row) : Prop :=
  ∀ n ∈ g.loadNodes root, x (g.node n).fieldName = y (g.node n).fieldName

/-- The mask depends on the fields the expression names, on 64 rows. -/
theorem kernelMask_congr {g : Graph} {root : NodeRef} {rows rows' : ℕ → Graph.Row}
    (h : ∀ r < 64, SameFields g root (rows r) (rows' r)) (mode : ExecutionMode) (x2 x3 x5 : Word) :
    kernelMask g rows mode root x2 x3 x5 = kernelMask g rows' mode root x2 x3 x5 := by
  cases mode with
  | bitSliced =>
    have hinputs : ∀ ns : List NodeRef, (∀ n ∈ ns, n ∈ g.listing root) → ∀ b,
        Circuit.SameInputs g (rowInputs g rows) (rowInputs g rows') ns b := by
      intro ns hns b n hn c hc _ _
      have hmem := (g.postOrder_listing root).closed (hns n hn) hc
      unfold rowInputs
      cases hk : g.kind c with
      | load =>
        refine BitVec.eq_of_getLsbD_eq fun r hr => ?_
        rw [BitPlane.columnPlane_getLsbD _ b hr, BitPlane.columnPlane_getLsbD _ b hr,
          h r hr c ((g.mem_loadNodes root).mpr ⟨hmem, hk⟩)]
      | _ => rfl
    refine Circuit.mask_congr (fun b _ => hinputs _ (fun n hn => (mem_adderNodes.mp hn).1) b)
      (fun b _ => hinputs _ (fun n hn => ?_) b) x2 x3
    exact (g.mem_listing root).mpr (mem_collectComparisons (List.mem_of_mem_take hn)).1
  | scalar =>
    refine Scalar.mask_congr (fun k hk n hn hkind => ?_) x2 x3 x5
    rcases hkind with hkind | hkind
    · simp only [Graph.rowLeaf, hkind, h k hk n ((g.mem_loadNodes root).mpr ⟨hn, hkind⟩)]
    · simp only [Graph.rowLeaf, hkind]

/-- A kernel that isolates the rows: two calls with zeroed scratchpads, on columns that
agree on row `r`, return masks that agree on bit `r`. -/
def RowsIsolated (caller caller' : Caller) (code : List A64.Item) (mode : ExecutionMode) (g : Graph)
    (root : NodeRef) (ms : NodeMetas) : Prop :=
  ∀ planes planes' rows rows', Presents mode g root ms planes rows →
    Presents mode g root ms planes' rows' → ∀ r < 64, SameFields g root (rows r) (rows' r) →
    ∃ m S m' S', caller.callExpr code planes (fun _ => 0) = some (m, S) ∧
      caller'.callExpr code planes' (fun _ => 0) = some (m', S') ∧ m.getLsbD r = m'.getLsbD r

section Calls

variable {mode : ExecutionMode} {g : Graph} {root : NodeRef}

/-- A buffer shows any column with the same values. -/
theorem ShowsColumn.congr {plane column column' : ℕ → Word} (h : ShowsColumn mode plane column)
    (hsame : ∀ r < 64, column r = column' r) : ShowsColumn mode plane column' := by
  cases mode with
  | bitSliced =>
    intro r hr
    rw [← hsame r hr]
    exact h r hr
  | scalar => exact fun r hr => (h r hr).trans (hsame r hr)

/-- Planes present any rows with the same fields. -/
theorem Presents.congr {ms : NodeMetas} {planes : Planes} {rows rows' : ℕ → Graph.Row}
    (h : Presents mode g root ms planes rows)
    (hsame : ∀ r < 64, SameFields g root (rows r) (rows' r)) :
    Presents mode g root ms planes rows' := by
  intro n hn
  obtain ⟨p, hplane, hshow⟩ := h n hn
  exact ⟨p, hplane, hshow.congr fun r hr => hsame r hr n hn⟩

/-- Either mode's verdicts, when the words are contained. -/
theorem laneVerdict_isolated (h : mode = .scalar → Contained g root) {rows rows' : ℕ → Graph.Row}
    {r : ℕ} (hr : r < 64) (hsame : rows r = rows' r) :
    laneVerdict g rows mode root r = laneVerdict g rows' mode root r := by
  cases mode with
  | bitSliced => rw [laneVerdict, laneVerdict, hsame]
  | scalar => exact (h rfl).laneVerdict_eq hr hsame

end Calls

section Compiled

variable {mode : ExecutionMode} {heap : ℕ → Word} {g : Graph} {root : NodeRef}
  {st st' : CompileState} {code : List A64.Item} {caller caller' : Caller}

/-- Two calls of a scalar kernel that isolates the rows tell that the words are
contained. -/
theorem RowsIsolated.contained (h : RowsIsolated caller caller' code .scalar g root st'.metas)
    (hcompile : compile .scalar heap g (some root) st = (some code, st')) (hw : g.WellTyped root)
    (hfits : Fits g .scalar root) (hpool : st'.pool ⊆ caller.pool)
    (hpool' : st'.pool ⊆ caller'.pool) : Contained g root := by
  refine contained_of_laneVerdict fun rows rows' r hr hsame => ?_
  have hzero := keeps_zero .scalar g root st'.metas
  have hp := presents_presented hcompile rows
  have hp' := presents_presented hcompile rows'
  obtain ⟨m, S, m', S', hcall, hcall', hbit⟩ := h _ _ rows rows' hp hp' r hr
    fun n _ => by rw [hsame]
  obtain ⟨T, hrun, -⟩ := call_compiled hcompile hfits hpool hp hzero
  obtain ⟨T', hrun', -⟩ := call_compiled hcompile hfits hpool' hp' hzero
  rw [hcall] at hrun
  rw [hcall'] at hrun'
  obtain ⟨hm, -⟩ := Prod.mk.inj (Option.some.inj hrun)
  obtain ⟨hm', -⟩ := Prod.mk.inj (Option.some.inj hrun')
  rwa [hm, hm', kernelMask_getLsbD hw _ _ _ _ hr, kernelMask_getLsbD hw _ _ _ _ hr] at hbit

/-- Kernels whose verdicts on a row do not depend on the others isolate the rows. -/
theorem rowsIsolated_of_contained (h : mode = .scalar → Contained g root)
    (hcompile : compile mode heap g (some root) st = (some code, st')) (hw : g.WellTyped root)
    (hfits : Fits g mode root) (hpool : st'.pool ⊆ caller.pool)
    (hpool' : st'.pool ⊆ caller'.pool) :
    RowsIsolated caller caller' code mode g root st'.metas := by
  intro planes planes' rows rows' hp hp' r hr hsame
  have hzero := keeps_zero mode g root st'.metas
  -- the rows of the second call, with row `r` as the first has it
  have hp'' : Presents mode g root st'.metas planes' (Function.update rows' r (rows r)) := by
    refine hp'.congr fun j _ => ?_
    by_cases hj : j = r
    · subst hj
      rw [Function.update_self]
      exact fun n hn => (hsame n hn).symm
    · rw [Function.update_of_ne hj]
      exact fun n _ => rfl
  obtain ⟨S, hrun, -⟩ := call_compiled hcompile hfits hpool hp hzero
  obtain ⟨S', hrun', -⟩ := call_compiled hcompile hfits hpool' hp'' hzero
  refine ⟨_, S, _, S', hrun, hrun', ?_⟩
  rw [kernelMask_getLsbD hw _ _ _ _ hr, kernelMask_getLsbD hw _ _ _ _ hr]
  refine laneVerdict_isolated h hr ?_
  rw [Function.update_self]

/-- **Which kernels isolate the rows**: all of the bit-sliced ones, and the scalar ones of
the expressions whose words are contained. -/
theorem rowsIsolated_iff (hcompile : compile mode heap g (some root) st = (some code, st'))
    (hw : g.WellTyped root) (hfits : Fits g mode root) (hpool : st'.pool ⊆ caller.pool)
    (hpool' : st'.pool ⊆ caller'.pool) :
    RowsIsolated caller caller' code mode g root st'.metas ↔
      (mode = .scalar → Contained g root) := by
  constructor
  · rintro h rfl
    exact h.contained hcompile hw hfits hpool hpool'
  · exact fun h => rowsIsolated_of_contained h hcompile hw hfits hpool hpool'

/-- The scalar kernel of `GT(Load("a"), Const(5))`. -/
theorem rowsIsolated_iff_threshold : ∃ code ms,
    compile .scalar standardHeap (thresholdGraph (.ofString [97]) 5) (some 2) ⟨fun _ => {}, []⟩ =
      (some code, ⟨ms, []⟩) ∧
    RowsIsolated (Caller.standard [] (by decide)) (Caller.standard [] (by decide)) code .scalar
      (thresholdGraph (.ofString [97]) 5) 2 ms := by
  have hw := wellTyped_threshold (.ofString [97]) 5
  refine ⟨_, _, compile_scalar _ _ _ _, ?_⟩
  refine (rowsIsolated_iff (compile_scalar standardHeap _ _ _) hw (fun _ => ⟨by decide, by decide⟩)
    (List.nil_subset _) (List.nil_subset _)).mpr fun _ => contained_of_tidy hw ?_
  exact ⟨by decide, by decide, by decide⟩

end Compiled

/-! ## A negation in a used node -/

/-- The pool of a thread that has built `GT(a, d)`, reset its pool and then built
`NOT(GT(a, b))` and a field `c` in between.  The negation is written to the node of the
first comparison and keeps its right operand. -/
def reusedPool : NodePool :=
  let (a, p) := NodePool.fresh.load (.ofString [97])
  let (_, p) := p.load (.ofString [98])
  let (_, p) := p.load (.ofString [99])
  let (d, p) := p.load (.ofString [100])
  let (_, p) := p.gt a d
  let p := p.reset
  let (a, p) := p.load (.ofString [97])
  let (b, p) := p.load (.ofString [98])
  let (gt, p) := p.gt a b
  let (_, p) := p.load (.ofString [99])
  (p.not gt).2

theorem ordered_reusedPool : reusedPool.Ordered := by
  have hlt : ∀ {i k : ℕ}, i < k → ∀ n, some i = some n → n < k := by
    intro i k h n hn
    rwa [← Option.some.inj hn]
  unfold reusedPool
  refine NodePool.ordered_not (NodePool.ordered_load (NodePool.ordered_binary
    (NodePool.ordered_load (NodePool.ordered_load (NodePool.ordered_reset
      (NodePool.ordered_binary (NodePool.ordered_load (NodePool.ordered_load
        (NodePool.ordered_load (NodePool.ordered_load NodePool.ordered_fresh _) _) _) _) .gt
          (hlt ?_) (hlt ?_))) _) _) .gt (hlt ?_) (hlt ?_)) _) (hlt ?_) <;> decide

/-- The expression `NOT(GT(a, b))` in this pool. -/
def reusedGraph : Graph := reusedPool.graph ordered_reusedPool

theorem wellTyped_reused : reusedGraph.WellTyped 4 := of_decide_eq_true rfl

/-- Its word is the field `c`. -/
theorem scalarValue_reused (row : Graph.Row) : reusedGraph.scalarValue row 4 = row [99] := rfl

/-- **A row that changes another's bit**: the scalar kernel of this negation shifts the
field `c` of a row into the bits of the rows behind it. -/
theorem rowsIsolated_reused : ¬ ∀ (mode : ExecutionMode) (heap : ℕ → Word) (g : Graph)
    (root : NodeRef) (st st' : CompileState) (code : List A64.Item) (caller caller' : Caller),
    compile mode heap g (some root) st = (some code, st') → g.WellTyped root → Fits g mode root →
    st'.pool ⊆ caller.pool → st'.pool ⊆ caller'.pool →
    RowsIsolated caller caller' code mode g root st'.metas := by
  intro h
  have hcompile := compile_scalar standardHeap reusedGraph 4 ⟨fun _ => {}, []⟩
  have hfits : Fits reusedGraph .scalar 4 := fun _ => ⟨by decide, by decide⟩
  have hisolated := h .scalar standardHeap reusedGraph 4 _ _ _ (Caller.standard [] (by decide))
    (Caller.standard [] (by decide)) hcompile wellTyped_reused hfits (List.nil_subset _)
    (List.nil_subset _)
  have hcontained := hisolated.contained hcompile wellTyped_reused hfits (List.nil_subset _)
    (List.nil_subset _)
  have hbit : ∀ (x : Word) k, reusedGraph.wordBit (fun _ => x) 4 k = x.getLsbD k := by
    intro x k
    rw [Graph.wordBit, scalarValue_reused]
  rcases hcontained with hclear | hset | ⟨k, -, hset, -⟩
  · have := hclear (fun _ => 2) 1 le_rfl
    rw [hbit] at this
    exact absurd this (by decide)
  · have := hset fun _ => 0
    rw [hbit] at this
    exact absurd this (by decide)
  · have := hset fun _ => 0
    rw [hbit] at this
    exact absurd this (by simp)

end Jit
end ApexEngine
