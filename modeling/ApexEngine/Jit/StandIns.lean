import ApexEngine.Jit.Isolation

/-!
# What a scalar kernel takes the kinds without code for

The scalar compiler evaluates the listed nodes one after another and stores the result
register after each.  For a negation, a selection or a shift it emits nothing, so what is
stored is the result of the node listed before, whichever that is: an operand that was
visited for the first time right there, or, if the operands were visited earlier from
another node, whatever happened to be visited last.

This is an expression of its own.  `Graph.standIns` replaces the operands of every node
without code by the node listed before it, its stand-in, and leaves the others as they
are; `Graph.read` is the value of a node when those without code have the value of their
stand-ins.  On a well-typed expression the scalar kernel computes exactly this, for every
node and from whatever the row before has left (`cell_eq_read`, `scalarValue_eq_read`).
Where every node below has code, it is what it should be (`read_eq_word`).

A condition is read as zero or one when the conditions without code stand for conditions,
which is so in every tidy expression.  It is then what its connectives make of the truth
values of the comparisons (`read_eq_connect`).
-/

namespace ApexEngine
namespace Jit

open A64 (Word)
open Scalar (RowState)

/-- The kinds the scalar compiler has code for. -/
def NodeKind.hasCode : NodeKind → Bool
  | .not | .select | .lsl | .lsr => false
  | _ => true

theorem NodeKind.hasCode_of_mem {k : NodeKind} (h : k ∈ scalarKinds) : k.hasCode = true := by
  revert h
  cases k <;> decide

namespace Graph

variable (g : Graph) (root : NodeRef)

/-- The node listed right before another. -/
def before (n : NodeRef) : Option NodeRef :=
  ((g.listing root).takeWhile fun m => decide (m ≠ n)).getLast?

/-- The node listed before a node without code takes the place of its operands. -/
def standInNode (n : NodeRef) : Node :=
  if n ∈ g.listing root ∧ (g.kind n).hasCode = false then
    { g.node n with left := g.before root n, right := none, cond := none }
  else g.node n

/-- The place of a node in the list; nodes that are not listed come after it. -/
def place (n : NodeRef) : ℕ :=
  if n ∈ g.listing root then (g.listing root).idxOf n else (g.listing root).length + g.rank n

section Places

variable {g root} {n c : NodeRef} {p q : List NodeRef}

theorem before_of_split (hsplit : g.listing root = p ++ n :: q) : g.before root n = p.getLast? := by
  have hpost := g.postOrder_listing root
  rw [hsplit] at hpost
  have hall : ∀ m ∈ p, decide (m ≠ n) = true := fun m hm =>
    decide_eq_true fun hmn => hpost.notMem_left (hmn ▸ hm)
  rw [before, hsplit, List.takeWhile_append_of_pos hall, List.takeWhile_cons_of_neg (by simp),
    List.append_nil]

/-- What is listed before comes before. -/
theorem place_lt_of_split (hsplit : g.listing root = p ++ n :: q) (hc : c ∈ p) :
    g.place root c < g.place root n := by
  have hpost := g.postOrder_listing root
  rw [hsplit] at hpost
  have hmem : c ∈ g.listing root ∧ n ∈ g.listing root := by
    rw [hsplit]
    simp [hc]
  rw [place, place, if_pos hmem.1, if_pos hmem.2, hsplit, List.idxOf_append_of_mem hc,
    List.idxOf_append_of_notMem hpost.notMem_left]
  exact Nat.lt_add_right _ (List.idxOf_lt_length_of_mem hc)

theorem place_lt (hc : c ∈ (g.standInNode root n).children) : g.place root c < g.place root n := by
  by_cases hn : n ∈ g.listing root
  · obtain ⟨p, q, hsplit⟩ := List.append_of_mem hn
    have hpost := g.postOrder_listing root
    rw [hsplit] at hpost
    refine place_lt_of_split hsplit ?_
    unfold standInNode at hc
    split at hc
    · -- the stand-in
      simp only [Node.mem_children, reduceCtorEq, or_false, before_of_split hsplit] at hc
      exact List.mem_of_getLast? hc
    · exact hpost.children_mem c hc
  · rw [standInNode, if_neg fun h => hn h.1] at hc
    rw [place, place, if_neg hn]
    split
    · next hmem => exact Nat.lt_add_right _ (List.idxOf_lt_length_of_mem hmem)
    · exact Nat.add_lt_add_left (g.rank_lt n c hc) _

end Places

/-- The expression with stand-ins. -/
def standIns : Graph := ⟨g.standInNode root, g.place root, fun _ _ hc => place_lt hc⟩

variable (row : Row)

/-- The value of a node from those of its operands, where those without code have the value
of their stand-ins. -/
def readStep (n : NodeRef) (left right _cond : Option Word) : Word :=
  match g.kind n with
  | .load => row (g.node n).fieldName
  | .const => (g.node n).constValue
  | .add => left.getD 0 + right.getD 0
  | .sub => left.getD 0 - right.getD 0
  | .gt => if right.getD 0 < left.getD 0 then 1 else 0
  | .lt => if left.getD 0 < right.getD 0 then 1 else 0
  | .eq => if left.getD 0 = right.getD 0 then 1 else 0
  | .and => left.getD 0 &&& right.getD 0
  | .or => left.getD 0 ||| right.getD 0
  | .not | .select | .lsl | .lsr => left.getD 0

/-- **What a scalar kernel takes for the value of a node** on a row. -/
def read : NodeRef → Word := (g.standIns root).fold (g.readStep row)

/-- The truth of a condition from those of its operands, when it is known how comparisons are
decided.  Negations and selections have the truth of their stand-ins. -/
def connectStep (decided : NodeRef → Bool) (n : NodeRef) (left right _cond : Option Bool) : Bool :=
  match g.kind n with
  | .gt | .lt | .eq => decided n
  | .and => left.getD false && right.getD false
  | .or => left.getD false || right.getD false
  | .not | .select => left.getD false
  | _ => false

/-- **What a scalar kernel makes of the decisions** about comparisons. -/
def connect (decided : NodeRef → Bool) : NodeRef → Bool :=
  (g.standIns root).fold (g.connectStep decided)

end Graph

section Reading

variable {g : Graph} {root n : NodeRef} {row : Graph.Row}

/-- A node with code is read from its operands. -/
theorem read_of_hasCode (hk : (g.kind n).hasCode = true) :
    g.read root row n = g.readStep row n ((g.node n).left.map (g.read root row))
      ((g.node n).right.map (g.read root row)) ((g.node n).cond.map (g.read root row)) := by
  have hnode : (g.standIns root).node n = g.node n :=
    if_neg fun h => absurd (hk.symm.trans h.2) (by decide)
  have heq := (g.standIns root).fold_eq (g.readStep row) n
  rw [hnode] at heq
  exact heq

/-- A node without code is read as its stand-in. -/
theorem read_of_before {m : NodeRef} (hn : n ∈ g.listing root) (hk : (g.kind n).hasCode = false)
    (hbefore : g.before root n = some m) : g.read root row n = g.read root row m := by
  have hleft : ((g.standIns root).node n).left = some m := by
    have hnode : (g.standIns root).node n =
        { g.node n with left := g.before root n, right := none, cond := none } := if_pos ⟨hn, hk⟩
    rw [hnode]
    exact hbefore
  have heq := (g.standIns root).fold_eq (g.readStep row) n
  rw [hleft, Graph.readStep] at heq
  rw [Graph.read, heq]
  cases hkind : g.kind n <;> first | rfl | exact absurd hk (by rw [hkind]; decide)

/-- A field or a constant is read as it is. -/
theorem read_of_leaf (hk : g.kind n = .load ∨ g.kind n = .const) :
    g.read root row n = g.rowLeaf row n := by
  have hcode : (g.kind n).hasCode = true := by rcases hk with hk | hk <;> rw [hk] <;> rfl
  rw [read_of_hasCode hcode, Graph.readStep, Graph.rowLeaf]
  rcases hk with hk | hk <;> simp only [hk]

/-- A finished operand is fetched as it is read. -/
theorem fetch_eq_read {p : List NodeRef} {cell : NodeRef → Word}
    (h : ∀ m ∈ p, cell m = g.read root row m) {c : NodeRef} (hc : c ∈ p) (stale : Word) :
    Scalar.fetch g (g.rowLeaf row) cell (some c) stale = g.read root row c := by
  by_cases hk : g.kind c = .load ∨ g.kind c = .const
  · rw [Scalar.fetch_leaf hk, read_of_leaf hk]
  · rw [Scalar.fetch_inner hk, h c hc]

/-- **One node of a row** is computed as it is read. -/
theorem evalNode_eq_read (hw : g.WellTyped root) {p q : List NodeRef} {s : RowState}
    (hsplit : g.listing root = p ++ n :: q) (h : ∀ m ∈ p, s.cell m = g.read root row m)
    (hcarried : Carried p s) :
    (Scalar.evalNode g (g.rowLeaf row) s n).res = g.read root row n := by
  have hpost := g.postOrder_listing root
  rw [hsplit] at hpost
  have hn : n ∈ g.listing root := by
    rw [hsplit]
    simp
  have hleft : ∀ {kind}, (g.kind n).leftKind = some kind → ∃ c, (g.node n).left = some c ∧ c ∈ p :=
    fun hk => by
      obtain ⟨c, hc, -⟩ := hw.left hn hk
      exact ⟨c, hc, hpost.children_mem c (Node.mem_children.mpr (Or.inl hc))⟩
  have hright : ∀ {kind}, (g.kind n).rightKind = some kind →
      ∃ c, (g.node n).right = some c ∧ c ∈ p := fun hk => by
    obtain ⟨c, hc, -⟩ := hw.right hn hk
    exact ⟨c, hc, hpost.children_mem c (Node.mem_children.mpr (Or.inr (Or.inl hc)))⟩
  simp only [Scalar.evalNode]
  cases hk : g.kind n with
  | load | const =>
    rw [read_of_leaf (by simp [hk])]
    simp only [Scalar.result, hk]
  | add | sub | gt | lt | eq | and | or =>
    obtain ⟨l, hl, hlp⟩ := hleft (by rw [hk]; rfl)
    obtain ⟨r, hr, hrp⟩ := hright (by rw [hk]; rfl)
    rw [read_of_hasCode (by rw [hk]; rfl)]
    simp only [Graph.readStep, Scalar.result, hk, hl, hr, Option.map_some, Option.getD_some,
      fetch_eq_read h hlp, fetch_eq_read h hrp]
  | not | select | lsl | lsr =>
    -- there is a node before, the operand at least
    obtain ⟨l, -, hlp⟩ := hleft (by rw [hk]; rfl)
    obtain ⟨p', m, rfl⟩ := (List.eq_nil_or_concat' p).resolve_left (List.ne_nil_of_mem hlp)
    have hbefore : g.before root n = some m := by
      rw [Graph.before_of_split hsplit, List.getLast?_concat]
    rw [read_of_before hn (by rw [hk]; rfl) hbefore, ← h m (by simp), ← hcarried p' m rfl]
    simp only [Scalar.result, hk]

/-- **What the cells have at the end of a row**, from whatever it starts. -/
theorem cell_eq_read (hw : g.WellTyped root) (hn : n ∈ g.listing root) (s : RowState) :
    (Scalar.evalRow g (g.rowLeaf row) root s).cell n = g.read root row n :=
  evalRow_induction (C := fun m w => w = g.read root row m)
    (fun hsplit h hcarried => evalNode_eq_read hw hsplit h hcarried) s n hn

/-- **The word of a row** is the root as it is read. -/
theorem scalarValue_eq_read (hw : g.WellTyped root) :
    g.scalarValue row root = g.read root row root := by
  rw [Graph.scalarValue, ← Scalar.evalRow_cell_root, cell_eq_read hw (g.root_mem_listing root)]

/-- What a node with code is read as. -/
theorem read_eq_result (hk : (g.kind n).hasCode = true) (stale : Word) :
    g.read root row n = Scalar.result g (g.rowLeaf row) n
      (((g.node n).left.map (g.read root row)).getD 0)
      (((g.node n).right.map (g.read root row)).getD 0) stale := by
  rw [read_of_hasCode hk, Graph.readStep, Scalar.result, Graph.rowLeaf]
  cases hkind : g.kind n <;> first | rfl | exact absurd hk (by rw [hkind]; decide)

/-- **Where every node below has code**, a node is read as it is meant. -/
theorem read_eq_word (hw : g.WellTyped root) (hn : n ∈ g.listing root)
    (hover : g.Over n scalarKinds) : g.read root row n = g.word row n := by
  induction n using g.induction with
  | h n ih =>
    have hkind := hover n (g.root_mem_listing n)
    have hread : ∀ c ∈ (g.node n).children, g.read root row c = g.word row c := by
      intro c hc
      refine ih c hc ((g.postOrder_listing root).closed hn hc) fun m hm => hover m ?_
      exact (g.mem_listing n).mpr (.head hc ((g.mem_listing c).mp hm))
    rw [read_eq_result (NodeKind.hasCode_of_mem hkind) 0]
    refine result_eq_word hw hn hkind (fun c hc => ?_) (fun c hc => ?_) 0
    · rw [hc]
      exact hread c (Node.mem_children.mpr (Or.inl hc))
    · rw [hc]
      exact hread c (Node.mem_children.mpr (Or.inr (Or.inl hc)))

/-! ## Conditions -/

/-- Where every condition has code, none without follows anything. -/
theorem followMasks_of_over (h : ∀ n ∈ g.listing root, (g.kind n).isUntranslated = false) :
    FollowMasks g (g.listing root) := by
  intro p n q hsplit hn
  have hmem : n ∈ g.listing root := by
    rw [hsplit]
    simp
  rw [h n hmem] at hn
  exact absurd hn (by simp)

variable {decided : NodeRef → Bool}

/-- The connectives of a node with code. -/
theorem connect_of_hasCode (hk : (g.kind n).hasCode = true) :
    g.connect root decided n = g.connectStep decided n
      ((g.node n).left.map (g.connect root decided)) ((g.node n).right.map (g.connect root decided))
      ((g.node n).cond.map (g.connect root decided)) := by
  have hnode : (g.standIns root).node n = g.node n :=
    if_neg fun h => absurd (hk.symm.trans h.2) (by decide)
  have heq := (g.standIns root).fold_eq (g.connectStep decided) n
  rw [hnode] at heq
  exact heq

/-- A condition without code has the truth of its stand-in. -/
theorem connect_of_before {m : NodeRef} (hn : n ∈ g.listing root)
    (hk : (g.kind n).isUntranslated = true) (hbefore : g.before root n = some m) :
    g.connect root decided n = g.connect root decided m := by
  have hcode : (g.kind n).hasCode = false := by
    revert hk
    cases g.kind n <;> decide
  have hleft : ((g.standIns root).node n).left = some m := by
    have hnode : (g.standIns root).node n =
        { g.node n with left := g.before root n, right := none, cond := none } :=
      if_pos ⟨hn, hcode⟩
    rw [hnode]
    exact hbefore
  have heq := (g.standIns root).fold_eq (g.connectStep decided) n
  rw [hleft, Graph.connectStep] at heq
  rw [Graph.connect, heq]
  cases hkind : g.kind n <;> first | rfl | exact absurd hk (by rw [hkind]; decide)

/-- A bit for a truth value, and for a conjunction and a disjunction of two. -/
theorem ite_and_ite (p q : Bool) :
    ((if p then 1 else 0 : Word) &&& if q then 1 else 0) = if p && q then 1 else 0 := by
  cases p <;> cases q <;> rfl

theorem ite_or_ite (p q : Bool) :
    ((if p then 1 else 0 : Word) ||| if q then 1 else 0) = if p || q then 1 else 0 := by
  cases p <;> cases q <;> rfl

/-- **A condition is read as its connectives say**, when comparisons are read as they are
decided and conditions without code follow conditions. -/
theorem read_eq_connect (hw : g.WellTyped root) (hfollow : FollowMasks g (g.listing root))
    (hdecided : ∀ n ∈ g.listing root, (g.kind n).isComparison = true →
      g.read root row n = if decided n then 1 else 0)
    (hn : n ∈ g.listing root) (hmask : (g.kind n).resultKind = .bitmask) :
    g.read root row n = if g.connect root decided n then 1 else 0 := by
  induction n using (g.standIns root).induction with
  | h n ih =>
    cases hk : g.kind n with
    | gt | lt | eq =>
      rw [hdecided n hn (by rw [hk]; rfl), connect_of_hasCode (by rw [hk]; rfl), Graph.connectStep,
        hk]
    | and | or =>
      have hcode : (g.kind n).hasCode = true := by rw [hk]; rfl
      have hnode : (g.standIns root).node n = g.node n :=
        if_neg fun h => absurd (hcode.symm.trans h.2) (by decide)
      obtain ⟨l, hl, hlmem, hlk⟩ := hw.left hn (by rw [hk]; rfl)
      obtain ⟨r, hr, hrmem, hrk⟩ := hw.right hn (by rw [hk]; rfl)
      have hleft := ih l (by rw [hnode]; exact Node.mem_children.mpr (Or.inl hl)) hlmem hlk
      have hright := ih r (by rw [hnode]; exact Node.mem_children.mpr (Or.inr (Or.inl hr))) hrmem hrk
      rw [read_of_hasCode hcode, connect_of_hasCode hcode, Graph.readStep, Graph.connectStep, hk, hl,
        hr]
      simp only [Option.map_some, Option.getD_some, hleft, hright, ite_and_ite, ite_or_ite]
    | not | select =>
      obtain ⟨p, q, hsplit⟩ := List.append_of_mem hn
      obtain ⟨hne, hlast⟩ := hfollow p n q hsplit (by rw [hk]; rfl)
      obtain ⟨p', m, rfl⟩ := (List.eq_nil_or_concat' p).resolve_left hne
      have hbefore : g.before root n = some m := by
        rw [Graph.before_of_split hsplit, List.getLast?_concat]
      have hcode : (g.kind n).hasCode = false := by rw [hk]; rfl
      have hchild : m ∈ ((g.standIns root).node n).children := by
        have hnode : (g.standIns root).node n =
            { g.node n with left := g.before root n, right := none, cond := none } :=
          if_pos ⟨hn, hcode⟩
        rw [hnode]
        exact Node.mem_children.mpr (Or.inl hbefore)
      have hmem : m ∈ g.listing root := by
        rw [hsplit]
        simp
      rw [read_of_before hn hcode hbefore, connect_of_before hn (by rw [hk]; rfl) hbefore,
        ih m hchild hmem (hlast p' m rfl)]
    | _ => exact absurd hmask (by rw [hk]; decide)

end Reading
end Jit
end ApexEngine
