import ApexEngine.Api.CApi
import ApexEngine.Api.FieldNames
import ApexEngine.Api.Threshold
import ApexEngine.Jit.Allocation
import ApexEngine.Jit.Terms

/-!
# From what is written to what is counted

What the compilers and the engine ask of a graph (that it is typed, which kinds and how many
names and additions it has, how many comparisons ANDs lead to) can be read off the term its
calls spell, as long as no reset has left pointers in its nodes: a tidy graph written out has the
nodes of the term (`Graph.HasTerm.writtenOut`).  It may have fewer when results are used more
than once, and then the bounds are only easier to meet.  Without a reset every graph is tidy
(`Session.tidy_of_noReset`).

So an expression can be followed from the calls of the client to the number `execute` returns
(`written_counts`), for every run of the builder in which a mode has code for what is written.
It is the rows that satisfy the term, and the padding of the last block when a row of zeros
satisfies it.

The C interface has two functions that build an expression, and no function that resets the
pool.  A thread that uses nothing else can call them until the pool is used up; what they return
before is good for every engine that knows its fields (`created_logic_counts`).
-/

namespace ApexEngine
namespace Jit

open Core (Name)

/-! ## The shape of a graph -/

namespace Term

/-- The nodes of a term when it is written out: kinds, and stored names of fields. -/
def parts : {k : ResultKind} → Term k → List (NodeKind × Option Name)
  | _, .load fieldName => [(.load, some (storedName fieldName))]
  | _, .const _ => [(.const, none)]
  | _, .arithmetic op a b => (op.kind, none) :: (a.parts ++ b.parts)
  | _, .shift op a _ => (op.kind, none) :: a.parts
  | _, .compare op a b => (op.kind, none) :: (a.parts ++ b.parts)
  | _, .connect op a b => (op.kind, none) :: (a.parts ++ b.parts)
  | _, .not a => (.not, none) :: a.parts
  | _, .select cond a b => (.select, none) :: (a.parts ++ b.parts ++ cond.parts)

/-- The kinds of nodes that a term is built from. -/
def kinds {k : ResultKind} (t : Term k) : List NodeKind := t.parts.map Prod.fst

/-- The comparisons that ANDs lead to. -/
def comparisons : {k : ResultKind} → Term k → ℕ
  | _, .compare _ _ _ => 1
  | _, .connect .and a b => a.comparisons + b.comparisons
  | _, _ => 0

theorem names_eq {k : ResultKind} (t : Term k) :
    t.parts.filterMap Prod.snd = t.views.map storedName := by
  induction t with
  | load v => rfl
  | const value => rfl
  | arithmetic op a b iha ihb | compare op a b iha ihb | connect op a b iha ihb =>
    rw [parts, views, List.filterMap_cons_none rfl, List.filterMap_append, List.map_append, iha,
      ihb]
  | shift op a amount ih | not a ih => rw [parts, views, List.filterMap_cons_none rfl, ih]
  | select cond a b ihc iha ihb =>
    rw [parts, views, List.filterMap_cons_none rfl, List.filterMap_append, List.filterMap_append,
      List.map_append, List.map_append, iha, ihb, ihc]

end Term

namespace Graph

variable {g : Graph} {n m root : NodeRef} {k : ResultKind} {t : Term k}

/-- A node of a tidy expression has a tidy expression. -/
theorem Tidy.of_reach (h : g.Tidy root) (hn : g.Reach root n) : g.Tidy n := by
  have hlisted : ∀ m ∈ g.listing n, m ∈ g.listing root := fun m hm =>
    (g.mem_listing root).mpr (hn.trans ((g.mem_listing n).mp hm))
  exact ⟨fun m hm => h.left m (hlisted m hm), fun m hm => h.right m (hlisted m hm),
    fun m hm => h.cond m (hlisted m hm)⟩

/-- **`collect_fields` visits all of a tidy expression.** -/
theorem mem_visits (h : g.Tidy root) : m ∈ g.visits root ↔ g.Reach root m := by
  refine ⟨g.reach_of_mem_visits, fun hm => ?_⟩
  induction hm using Relation.ReflTransGen.head_induction_on with
  | refl =>
    rw [visits_eq]
    exact List.mem_cons_self
  | @head n c hc _ ih =>
    have hmem : m ∈ g.visits c := ih (h.of_reach (.single hc))
    rw [visits_eq, List.mem_cons, List.mem_append, List.mem_append]
    refine Or.inr ?_
    rcases Node.mem_children.mp hc with hl | hr | hcond
    · rw [hl]
      exact Or.inl (Or.inl hmem)
    · rw [hr]
      exact Or.inl (Or.inr hmem)
    · have hsel : g.kind n = .select := by
        by_contra hne
        have hnone : (g.kind n).condKind = none := by
          cases hk : g.kind n <;> first | rfl | exact absurd hk hne
        rw [h.cond n (g.root_mem_listing n) hnone] at hcond
        exact absurd hcond (by simp)
      rw [if_pos hsel, hcond]
      exact Or.inr hmem

/-- The kind of a node, with the name it has as a leaf. -/
def part (g : Graph) (n : NodeRef) : NodeKind × Option Name :=
  (g.kind n, if g.kind n = .load then some (g.node n).fieldName else none)

theorem part_of_ne_load (h : g.kind n ≠ .load) : g.part n = (g.kind n, none) := by
  rw [part, if_neg h]

/-- The node of a term has its result kind. -/
theorem HasTerm.resultKind (h : g.HasTerm t n) : (g.kind n).resultKind = k := by
  rw [kind]
  cases t with
  | load v => rw [(Node.MadeBy.load h).1]; rfl
  | const value => rw [(Node.MadeBy.const h).1]; rfl
  | arithmetic op a b =>
    obtain ⟨x, y, hc, -⟩ := h
    rw [hc.arithmetic.1]
    cases op <;> rfl
  | shift op a amount =>
    obtain ⟨x, hc, -⟩ := h
    rw [hc.shift.1]
    cases op <;> rfl
  | compare op a b =>
    obtain ⟨x, y, hc, -⟩ := h
    rw [hc.compare.1]
    cases op <;> rfl
  | connect op a b =>
    obtain ⟨x, y, hc, -⟩ := h
    rw [hc.connect.1]
    cases op <;> rfl
  | not a =>
    obtain ⟨x, hc, -⟩ := h
    rw [hc.not.1]
    rfl
  | select cond a b =>
    obtain ⟨z, x, y, hc, -⟩ := h
    rw [hc.select.1]
    rfl

/-! The visits of a node, by its operands. -/

theorem visits_leaf (hk : g.kind n ≠ .select) (hl : (g.node n).left = none)
    (hr : (g.node n).right = none) : g.visits n = [n] := by
  rw [visits_eq, hl, hr, if_neg hk]
  rfl

theorem visits_unary {x : NodeRef} (hk : g.kind n ≠ .select) (hl : (g.node n).left = some x)
    (hr : (g.node n).right = none) : g.visits n = n :: g.visits x := by
  rw [visits_eq, hl, hr, if_neg hk]
  simp

theorem visits_binary {x y : NodeRef} (hk : g.kind n ≠ .select) (hl : (g.node n).left = some x)
    (hr : (g.node n).right = some y) : g.visits n = n :: (g.visits x ++ g.visits y) := by
  rw [visits_eq, hl, hr, if_neg hk]
  simp

theorem visits_select {x y z : NodeRef} (hk : g.kind n = .select) (hl : (g.node n).left = some x)
    (hr : (g.node n).right = some y) (hc : (g.node n).cond = some z) :
    g.visits n = n :: (g.visits x ++ g.visits y ++ g.visits z) := by
  rw [visits_eq, hl, hr, hc, if_pos hk]
  rfl

/-! The operands of a tidy node are tidy. -/

theorem Tidy.of_left (h : g.Tidy n) (hl : (g.node n).left = some m) : g.Tidy m :=
  h.of_reach (.single (Node.mem_children.mpr (Or.inl hl)))

theorem Tidy.of_right (h : g.Tidy n) (hr : (g.node n).right = some m) : g.Tidy m :=
  h.of_reach (.single (Node.mem_children.mpr (Or.inr (Or.inl hr))))

theorem Tidy.of_cond (h : g.Tidy n) (hc : (g.node n).cond = some m) : g.Tidy m :=
  h.of_reach (.single (Node.mem_children.mpr (Or.inr (Or.inr hc))))

theorem gives_none (operand : Option NodeRef) : g.Gives operand none :=
  fun _ h => absurd h (by simp)

theorem gives_some {x : NodeRef} {kind : ResultKind} (h : (g.kind x).resultKind = kind) :
    g.Gives (some x) (some kind) :=
  fun _ hwant => ⟨x, rfl, h.trans (Option.some.inj hwant)⟩

/-- **A node of a term is typed.** -/
theorem HasTerm.nodeTyped (h : g.HasTerm t n) : g.NodeTyped n := by
  cases t with
  | load v =>
    obtain ⟨hk, -⟩ : g.kind n = .load ∧ _ := Node.MadeBy.load h
    constructor <;> rw [hk] <;> exact gives_none _
  | const value =>
    obtain ⟨hk, -⟩ : g.kind n = .const ∧ _ := Node.MadeBy.const h
    constructor <;> rw [hk] <;> exact gives_none _
  | arithmetic op a b =>
    obtain ⟨x, y, hc, hx, hy⟩ := h
    obtain ⟨hk, hl, hr⟩ : g.kind n = op.kind ∧ _ := hc.arithmetic
    constructor <;> rw [hk] <;> cases op
    any_goals rw [hl]; exact gives_some (HasTerm.resultKind hx)
    any_goals rw [hr]; exact gives_some (HasTerm.resultKind hy)
    all_goals exact gives_none _
  | shift op a amount =>
    obtain ⟨x, hc, hx⟩ := h
    obtain ⟨hk, hl, -⟩ : g.kind n = op.kind ∧ _ := hc.shift
    constructor <;> rw [hk] <;> cases op
    any_goals rw [hl]; exact gives_some (HasTerm.resultKind hx)
    all_goals exact gives_none _
  | compare op a b =>
    obtain ⟨x, y, hc, hx, hy⟩ := h
    obtain ⟨hk, hl, hr⟩ : g.kind n = op.kind ∧ _ := hc.compare
    constructor <;> rw [hk] <;> cases op
    any_goals rw [hl]; exact gives_some (HasTerm.resultKind (by assumption))
    any_goals rw [hr]; exact gives_some (HasTerm.resultKind (by assumption))
    all_goals exact gives_none _
  | connect op a b =>
    obtain ⟨x, y, hc, hx, hy⟩ := h
    obtain ⟨hk, hl, hr⟩ : g.kind n = op.kind ∧ _ := hc.connect
    constructor <;> rw [hk] <;> cases op
    any_goals rw [hl]; exact gives_some (HasTerm.resultKind hx)
    any_goals rw [hr]; exact gives_some (HasTerm.resultKind hy)
    all_goals exact gives_none _
  | not a =>
    obtain ⟨x, hc, hx⟩ := h
    obtain ⟨hk, hl⟩ : g.kind n = .not ∧ _ := hc.not
    constructor <;> rw [hk]
    · rw [hl]
      exact gives_some (HasTerm.resultKind hx)
    all_goals exact gives_none _
  | select cond a b =>
    obtain ⟨z, x, y, hc, hz, hx, hy⟩ := h
    obtain ⟨hk, hcond, hl, hr⟩ : g.kind n = .select ∧ _ := hc.select
    constructor <;> rw [hk]
    · rw [hl]
      exact gives_some (HasTerm.resultKind hx)
    · rw [hr]
      exact gives_some (HasTerm.resultKind hy)
    · rw [hcond]
      exact gives_some (HasTerm.resultKind hz)

/-- What is visited has the kinds and the names that occur in a term, as often as they occur, and
is typed. -/
structure WrittenOut (g : Graph) (t : Term k) (n : NodeRef) : Prop where
  parts : ((g.visits n).map g.part).Perm t.parts
  typed : ∀ m ∈ g.visits n, g.NodeTyped m

namespace WrittenOut

variable {j l : ResultKind} {a : Term j} {b : Term l} {x y z : NodeRef}

theorem leaf (h : g.HasTerm t n) (hvisits : g.visits n = [n]) (hpart : [g.part n] = t.parts) :
    g.WrittenOut t n where
  parts := by rw [hvisits, List.map_singleton, hpart]
  typed m hm := by
    rw [hvisits] at hm
    rw [List.mem_singleton.mp hm]
    exact h.nodeTyped

theorem unary (h : g.HasTerm t n) (hvisits : g.visits n = n :: g.visits x)
    (hparts : g.part n :: a.parts = t.parts) (ha : g.WrittenOut a x) : g.WrittenOut t n where
  parts := by
    rw [hvisits, List.map_cons, ← hparts]
    exact ha.parts.cons _
  typed := by
    rw [hvisits]
    exact List.forall_mem_cons.mpr ⟨h.nodeTyped, ha.typed⟩

theorem binary (h : g.HasTerm t n) (hvisits : g.visits n = n :: (g.visits x ++ g.visits y))
    (hparts : (g.part n :: (a.parts ++ b.parts)).Perm t.parts) (ha : g.WrittenOut a x)
    (hb : g.WrittenOut b y) : g.WrittenOut t n where
  parts := by
    rw [hvisits, List.map_cons, List.map_append]
    exact ((ha.parts.append hb.parts).cons _).trans hparts
  typed := by
    rw [hvisits]
    exact List.forall_mem_cons.mpr
      ⟨h.nodeTyped, List.forall_mem_append.mpr ⟨ha.typed, hb.typed⟩⟩

end WrittenOut

/-- **A tidy graph written out is its term.** -/
theorem HasTerm.writtenOut (h : g.HasTerm t n) (ht : g.Tidy n) : g.WrittenOut t n := by
  induction t generalizing n with
  | load v =>
    have hself := g.root_mem_listing n
    obtain ⟨hk, hname⟩ : g.kind n = .load ∧ _ := Node.MadeBy.load h
    refine .leaf h (visits_leaf (by rw [hk]; decide) (ht.left n hself (by rw [hk]; rfl))
      (ht.right n hself (by rw [hk]; rfl))) ?_
    rw [part, if_pos hk, hk, hname]
    rfl
  | const value =>
    have hself := g.root_mem_listing n
    obtain ⟨hk, -⟩ : g.kind n = .const ∧ _ := Node.MadeBy.const h
    refine .leaf h (visits_leaf (by rw [hk]; decide) (ht.left n hself (by rw [hk]; rfl))
      (ht.right n hself (by rw [hk]; rfl))) ?_
    rw [part_of_ne_load (by rw [hk]; decide), hk]
    rfl
  | arithmetic op a b iha ihb =>
    obtain ⟨x, y, hc, hx, hy⟩ := id h
    obtain ⟨hk, hl, hr⟩ : g.kind n = op.kind ∧ _ := hc.arithmetic
    refine .binary h (visits_binary (by rw [hk]; cases op <;> decide) hl hr) ?_
      (iha hx (ht.of_left hl)) (ihb hy (ht.of_right hr))
    rw [part_of_ne_load (by rw [hk]; cases op <;> decide), hk]
    exact .refl _
  | shift op a amount ih =>
    obtain ⟨x, hc, hx⟩ := id h
    obtain ⟨hk, hl, -⟩ : g.kind n = op.kind ∧ _ := hc.shift
    have hr := ht.right n (g.root_mem_listing n) (by rw [hk]; cases op <;> rfl)
    refine .unary h (visits_unary (by rw [hk]; cases op <;> decide) hl hr) ?_
      (ih hx (ht.of_left hl))
    rw [part_of_ne_load (by rw [hk]; cases op <;> decide), hk]
    rfl
  | compare op a b iha ihb =>
    obtain ⟨x, y, hc, hx, hy⟩ := id h
    obtain ⟨hk, hl, hr⟩ : g.kind n = op.kind ∧ _ := hc.compare
    have hpart : g.part n = (op.kind, none) := by
      rw [part_of_ne_load (by rw [hk]; cases op <;> decide), hk]
    have hne : g.kind n ≠ .select := by rw [hk]; cases op <;> decide
    cases hswap : op.swaps with
    | false =>
      simp only [hswap, Bool.false_eq_true, if_false] at hl hr
      refine .binary h (visits_binary hne hl hr) ?_ (iha hx (ht.of_left hl))
        (ihb hy (ht.of_right hr))
      rw [hpart]
      exact .refl _
    | true =>
      -- the operands are exchanged
      simp only [hswap, if_true] at hl hr
      refine .binary h (visits_binary hne hl hr) ?_ (ihb hy (ht.of_left hl))
        (iha hx (ht.of_right hr))
      rw [hpart]
      exact List.perm_append_comm.cons _
  | connect op a b iha ihb =>
    obtain ⟨x, y, hc, hx, hy⟩ := id h
    obtain ⟨hk, hl, hr⟩ : g.kind n = op.kind ∧ _ := hc.connect
    refine .binary h (visits_binary (by rw [hk]; cases op <;> decide) hl hr) ?_
      (iha hx (ht.of_left hl)) (ihb hy (ht.of_right hr))
    rw [part_of_ne_load (by rw [hk]; cases op <;> decide), hk]
    exact .refl _
  | not a ih =>
    obtain ⟨x, hc, hx⟩ := id h
    obtain ⟨hk, hl⟩ : g.kind n = .not ∧ _ := hc.not
    have hr := ht.right n (g.root_mem_listing n) (by rw [hk]; rfl)
    refine .unary h (visits_unary (by rw [hk]; decide) hl hr) ?_ (ih hx (ht.of_left hl))
    rw [part_of_ne_load (by rw [hk]; decide), hk]
    rfl
  | select cond a b ihc iha ihb =>
    obtain ⟨z, x, y, hc, hz, hx, hy⟩ := id h
    obtain ⟨hk, hcond, hl, hr⟩ : g.kind n = .select ∧ _ := hc.select
    have hcw := ihc hz (ht.of_cond hcond)
    have haw := iha hx (ht.of_left hl)
    have hbw := ihb hy (ht.of_right hr)
    refine ⟨?_, ?_⟩ <;> rw [visits_select hk hl hr hcond]
    · rw [List.map_cons, List.map_append, List.map_append,
        part_of_ne_load (by rw [hk]; decide), hk]
      exact (((haw.parts.append hbw.parts).append hcw.parts).cons _)
    · exact List.forall_mem_cons.mpr ⟨HasTerm.nodeTyped h, List.forall_mem_append.mpr
        ⟨List.forall_mem_append.mpr ⟨haw.typed, hbw.typed⟩, hcw.typed⟩⟩

/-! ## What the compilers ask for -/

/-- **A tidy graph of a condition is well-typed.** -/
theorem HasTerm.wellTyped {t : Term .bitmask} (h : g.HasTerm t n) (ht : g.Tidy n) :
    g.WellTyped n where
  node m hm := (h.writtenOut ht).typed m ((mem_visits ht).mpr ((g.mem_listing n).mp hm))
  mask := h.resultKind

/-- The kinds of its nodes occur in the term. -/
theorem HasTerm.over (h : g.HasTerm t n) (ht : g.Tidy n) {kinds : List NodeKind}
    (hkinds : t.kinds ⊆ kinds) : g.Over n kinds := by
  intro m hm
  have hvisit := (mem_visits ht).mpr ((g.mem_listing n).mp hm)
  have hpart := (h.writtenOut ht).parts.mem_iff.mp (List.mem_map_of_mem hvisit)
  exact hkinds (List.mem_map_of_mem (f := Prod.fst) hpart)

/-- So do the names of its leaves. -/
theorem HasTerm.name_mem (h : g.HasTerm t n) (ht : g.Tidy n) (hm : m ∈ g.loadNodes n) :
    (g.node m).fieldName ∈ t.views.map storedName := by
  obtain ⟨hlisted, hk⟩ := (g.mem_loadNodes n).mp hm
  have hvisit := (mem_visits ht).mpr ((g.mem_listing n).mp hlisted)
  have hpart := (h.writtenOut ht).parts.mem_iff.mp (List.mem_map_of_mem hvisit)
  rw [← t.names_eq]
  refine List.mem_filterMap.mpr ⟨_, hpart, ?_⟩
  rw [part, if_pos hk]

/-- There are no more names than in the term. -/
theorem HasTerm.length_fieldNames_le (h : g.HasTerm t n) (ht : g.Tidy n) :
    (g.fieldNames n).length ≤ (t.views.map storedName).dedup.length := by
  have hsub : g.fieldNames n ⊆ (t.views.map storedName).dedup := by
    intro x hx
    obtain ⟨m, hm, hk, rfl⟩ := mem_loadNames_iff.mpr hx
    exact List.mem_dedup.mpr
      (h.name_mem ht ((g.mem_loadNodes n).mpr ⟨(g.mem_listing n).mpr hm, hk⟩))
  exact ((nodup_fieldNames g n).subperm hsub).length_le

/-- There are no more arithmetic nodes than in the term, and fewer when some are shared. -/
theorem HasTerm.length_arithmeticNodes_le (h : g.HasTerm t n) (ht : g.Tidy n) :
    (g.arithmeticNodes n).length ≤ t.kinds.countP NodeKind.isArithmetic := by
  have hsub : g.arithmeticNodes n ⊆ (g.visits n).filter fun m => (g.kind m).isArithmetic := by
    intro m hm
    obtain ⟨hlisted, hk⟩ := (g.mem_arithmeticNodes n).mp hm
    exact List.mem_filter.mpr ⟨(mem_visits ht).mpr ((g.mem_listing n).mp hlisted), hk⟩
  have hcount : t.kinds.countP NodeKind.isArithmetic =
      ((g.visits n).filter fun m => (g.kind m).isArithmetic).length := by
    rw [Term.kinds, ← ((h.writtenOut ht).parts.map Prod.fst).countP_eq, List.map_map,
      List.countP_map, List.countP_eq_length_filter]
    rfl
  rw [hcount]
  exact ((g.nodup_arithmeticNodes n).subperm hsub).length_le

/-- Other kinds end the walk. -/
theorem length_collectComparisons_of_ne (h : g.kind n ≠ .gt ∧ g.kind n ≠ .lt ∧ g.kind n ≠ .eq ∧
    g.kind n ≠ .and) : (collectComparisons g n).length = 0 := by
  obtain ⟨hgt, hlt, heq, hand⟩ := h
  rw [collectComparisons, g.fold_eq]
  cases hk : g.kind n <;> first | rfl | exact absurd hk ‹_›

/-- The comparisons that ANDs lead to. -/
theorem HasTerm.length_collectComparisons (h : g.HasTerm t n) :
    (collectComparisons g n).length = t.comparisons := by
  induction t generalizing n with
  | load v =>
    obtain ⟨hk, -⟩ : g.kind n = .load ∧ _ := Node.MadeBy.load h
    exact length_collectComparisons_of_ne (by rw [hk]; decide)
  | const value =>
    obtain ⟨hk, -⟩ : g.kind n = .const ∧ _ := Node.MadeBy.const h
    exact length_collectComparisons_of_ne (by rw [hk]; decide)
  | arithmetic op a b =>
    obtain ⟨x, y, hc, -⟩ := h
    obtain ⟨hk, -⟩ : g.kind n = op.kind ∧ _ := hc.arithmetic
    exact length_collectComparisons_of_ne (by rw [hk]; cases op <;> decide)
  | shift op a amount =>
    obtain ⟨x, hc, -⟩ := h
    obtain ⟨hk, -⟩ : g.kind n = op.kind ∧ _ := hc.shift
    exact length_collectComparisons_of_ne (by rw [hk]; cases op <;> decide)
  | compare op a b =>
    obtain ⟨x, y, hc, -⟩ := h
    obtain ⟨hk, -⟩ : g.kind n = op.kind ∧ _ := hc.compare
    rw [collectComparisons, g.fold_eq, hk]
    cases op <;> rfl
  | connect op a b iha ihb =>
    obtain ⟨x, y, hc, hx, hy⟩ := h
    obtain ⟨hk, hl, hr⟩ : g.kind n = op.kind ∧ _ := hc.connect
    cases op with
    | and =>
      rw [collectComparisons, g.fold_eq, hk, hl, hr]
      simp only [ConnectiveOp.kind, Option.map_some, Option.getD_some, List.length_append]
      rw [Term.comparisons, ← iha hx, ← ihb hy]
      rfl
    | or => exact length_collectComparisons_of_ne (by rw [hk]; decide)
  | not a =>
    obtain ⟨x, hc, -⟩ := h
    obtain ⟨hk, -⟩ : g.kind n = .not ∧ _ := hc.not
    exact length_collectComparisons_of_ne (by rw [hk]; decide)
  | select cond a b =>
    obtain ⟨z, x, y, hc, -⟩ := h
    obtain ⟨hk, -⟩ : g.kind n = .select ∧ _ := hc.select
    exact length_collectComparisons_of_ne (by rw [hk]; decide)

end Graph

namespace Session

variable {calls : List BuilderCall}

/-- Before a reset the nodes are clean, and those that are free are as they were. -/
structure Unused (s : Session) : Prop where
  clean : ∀ n, (s.pool.storage n).Clean
  free : ∀ n, s.pool.nextIdx ≤ n → s.pool.storage n = { kind := .load }

theorem unused_start : start.Unused := by
  refine ⟨fun n p _ => ?_, fun n _ => rfl⟩
  cases p <;> rfl

theorem Unused.step {s : Session} (h : s.Unused) {c : BuilderCall} (hc : c ≠ .reset) :
    (s.step c).Unused := by
  obtain ⟨y, hnode⟩ := BuilderCall.exists_node hc
  rw [step_of_node hnode]
  rcases Nat.lt_or_ge s.pool.nextIdx NodePool.maxNodes with hlt | hle
  · rw [NodePool.build_of_lt hlt, h.free _ le_rfl, BuilderCall.overwrite_node hnode]
    refine ⟨fun n => ?_, fun n hn => ?_⟩
    · by_cases hn : n = s.pool.nextIdx
      · subst hn
        simp only [keep, Function.update_self]
        exact BuilderCall.clean_node hnode
      · simp only [keep, Function.update_of_ne hn]
        exact h.clean n
    · simp only [keep] at hn ⊢
      rw [Function.update_of_ne (Nat.ne_of_gt hn)]
      exact h.free n (Nat.le_of_lt hn)
  · rw [NodePool.build_of_le hle]
    exact ⟨h.clean, h.free⟩

theorem unused_run (h : .reset ∉ calls) : (run calls).Unused := by
  induction calls using List.reverseRecOn with
  | nil => exact unused_start
  | append_singleton calls c ih =>
    rw [run_snoc]
    exact (ih fun hmem => h (List.mem_append_left _ hmem)).step fun heq => h (by simp [heq])

/-- **Without a reset all expressions are tidy.** -/
theorem tidy_of_noReset (h : .reset ∉ calls) (hordered : (run calls).pool.Ordered)
    (root : NodeRef) : ((run calls).pool.graph hordered).Tidy root := by
  have hclean := (unused_run h).clean
  refine ⟨fun n _ hk => hclean n .left ?_, fun n _ hk => hclean n .right ?_,
    fun n _ hk => hclean n .cond ?_⟩
  · exact Option.isSome_eq_false_iff.mpr (Option.isNone_iff_eq_none.mpr hk)
  · exact Option.isSome_eq_false_iff.mpr (Option.isNone_iff_eq_none.mpr hk)
  · exact Option.isSome_eq_false_iff.mpr (Option.isNone_iff_eq_none.mpr hk)

end Session

/-- A mode has code for the kinds in a term, and registers for its comparisons. -/
def Term.Suits (t : Term .bitmask) : ExecutionMode → Prop
  | .bitSliced => t.kinds ⊆ conjunctiveKinds ∧ t.comparisons ≤ 3
  | .scalar => t.kinds ⊆ scalarKinds

end Jit

namespace Api

open A64 (Word)
open Core (Name SchemaRegistry FieldDescriptor)
open Compute (Data behind)
open Jit (ExecutionMode Caller Graph NodeRef CompileState Term BuilderCall Session StringView)

/-! ## What is counted -/

/-- Whether a row satisfies a term, by the fields of a schema. -/
def holds (registry : SchemaRegistry) (s : Name) (t : Term .bitmask) (bytes : Data) : Bool :=
  t.meaning fun v => rowOf registry s bytes v.bytes

/-- An expression that a run of the builder has written. -/
structure Written (calls : List BuilderCall) (t : Term .bitmask) (g : Graph) (root : NodeRef) :
    Prop extends Built calls g root where
  spelled : Session.Spells calls t root
  tidy : g.Tidy root

/-- The fields that a term names are registered, and their names are stored as they are. -/
def Names (registry : SchemaRegistry) (s : Name) (t : Term .bitmask) : Prop :=
  ∀ v ∈ t.views, v.Whole ∧ (registry.getField s v.bytes).isSome

section Written

variable {calls : List BuilderCall} {t : Term .bitmask} {g : Graph} {root : NodeRef} {e : Engine}
  {s : Name} {schema : SchemaMetadata} {registry : SchemaRegistry} {mode : ExecutionMode}
  {heap : ℕ → Word} {st : CompileState} {callers : ℕ → Caller}

theorem Written.lt (h : Written calls t g root) : root < (Session.run calls).pool.nextIdx :=
  (Session.wellFormed_run h.run).taken root h.result

theorem Written.hasTerm (h : Written calls t g root) : g.HasTerm t root := by
  obtain ⟨hordered, rfl⟩ := h.graph
  exact h.spelled.hasTerm hordered h.lt

/-- A pool has fewer nodes than a scratchpad has words. -/
theorem Written.length_listing_le (h : Written calls t g root) :
    (g.listing root).length ≤ 512 := by
  obtain ⟨hordered, rfl⟩ := h.graph
  have hroot := h.lt.trans_le (Session.nextIdx_le calls)
  exact (Jit.NodePool.length_listing_le hordered hroot).trans (by decide)

/-- **What is written means what it says**, on the rows of a schema that has its fields. -/
theorem Written.truth_eq (h : Written calls t g root) (hnames : Names registry s t) (bytes : Data) :
    g.truth (rowOf registry s bytes) root = holds registry s t bytes := by
  have hreading : g.truth (rowOf registry s bytes) root =
      t.meaning fun v => rowOf registry s bytes (Jit.storedName v) := Jit.Graph.reading_eq h.hasTerm
  refine hreading.trans (t.meaning_congr fun v hv => ?_)
  rw [(Jit.storedName_eq_bytes_iff v).mpr (hnames v hv).1]

/-- An expression that names registered fields resolves, since no node of it has a pointer that it
was not given. -/
theorem Written.resolves (h : Written calls t g root) (hnames : Names registry s t)
    (hfields : (g.fieldNames root).length ≤ 8) : Resolves s registry g root where
  registered n hn := by
    obtain ⟨v, hv, hname⟩ := List.mem_map.mp (h.hasTerm.name_mem h.tidy hn)
    obtain ⟨hwhole, hfield⟩ := hnames v hv
    rwa [← hname, (Jit.storedName_eq_bytes_iff v).mpr hwhole]
  visited n hn := by
    obtain ⟨hlisted, hk⟩ := (g.mem_loadNodes root).mp hn
    exact ⟨n, (Jit.Graph.mem_visits h.tidy).mpr ((g.mem_listing root).mp hlisted), hk, rfl⟩
  fields_le := hfields

/-- A mode that suits a term decides it in every lane. -/
theorem Written.laneVerdict_eq (h : Written calls t g root) (hnames : Names registry s t)
    (hsuits : t.Suits mode) (bytes : ℕ → Data) {r : ℕ} (hr : r < 64) :
    Jit.laneVerdict g (fun r => rowOf registry s (bytes r)) mode root r =
      holds registry s t (bytes r) := by
  have hterm := h.hasTerm
  rw [Jit.laneVerdict_eq_truth (hterm.wellTyped h.tidy) ?_ ?_ hr, h.truth_eq hnames]
  · rintro rfl
    exact ⟨hterm.over h.tidy hsuits.1, hterm.length_collectComparisons ▸ hsuits.2⟩
  · rintro rfl
    exact hterm.over h.tidy hsuits

/-- Zeros stand for every field. -/
theorem holds_zero (registry : SchemaRegistry) (s : Name) (t : Term .bitmask) :
    holds registry s t (fun _ => 0) = t.meaning fun _ => 0 := by
  refine t.meaning_congr fun v _ => ?_
  cases hfield : registry.getField s v.bytes with
  | none => simp only [rowOf, hfield, Option.map_none, Option.getD_none]
  | some field =>
    simp only [rowOf, hfield, Option.map_some, Option.getD_some]
    exact Compute.memcpy8_zero fun _ _ => rfl

/-- **What is installed decides the term.**  The additions are counted by nodes, since a result
that is used twice is computed once. -/
theorem Written.decides (h : Written calls t g root) (hnames : Names e.registry s t)
    (hsuits : t.Suits mode) (hfields : (g.fieldNames root).length ≤ 8)
    (harith : mode = .bitSliced → (g.arithmeticNodes root).length ≤ 8)
    (hpool : ∀ row, (Jit.compile mode heap g (some root) st).2.pool ⊆ (callers row).pool) :
    ∃ logic, (e.setExpression s heap g (some root) mode st).1 =
        { e with exprLogic := e.exprLogic.insert s logic } ∧
      Decides callers logic (holds e.registry s t) := by
  obtain ⟨code, hcode⟩ := Option.isSome_iff_exists.mp
    ((Jit.compile_isSome_iff mode heap g root st).mpr fun hmode => ⟨hfields, harith hmode⟩)
  obtain ⟨st', hcompile⟩ : ∃ st', Jit.compile mode heap g (some root) st = (some code, st') :=
    ⟨_, Prod.ext hcode rfl⟩
  have hinst := installed_setExpression hcompile (h.resolves hnames hfields)
  rw [hcompile] at hpool
  rw [setExpression_some e s hcompile] at hinst ⊢
  exact ⟨_, rfl, hinst.decides (fun _ => ⟨hfields, h.length_listing_le⟩) hpool
    (h.hasTerm.wellTyped h.tidy) fun bytes r hr => h.laneVerdict_eq hnames hsuits bytes hr⟩

/-- **From what is written to what is counted**, with the padding of the last block when a row of
zeros satisfies the term. -/
theorem written_counts (h : Written calls t g root) (he : Configured e s schema)
    (hnames : Names e.registry s t) (hsuits : t.Suits mode)
    (hfields : (g.fieldNames root).length ≤ 8)
    (harith : mode = .bitSliced → (g.arithmeticNodes root).length ≤ 8)
    (heap : ℕ → Word) (st : CompileState)
    (hpool : ∀ row, (Jit.compile mode heap g (some root) st).2.pool ⊆ (callers row).pool)
    (order : IterationOrder) (data : Data) (n : ℕ) :
    (e.setExpression s heap g (some root) mode st).1.count callers data order n =
      some ((List.range n).countP (fun i =>
          holds e.registry s t (datasetRow data schema.rowStride i)) +
        if t.meaning fun _ => 0 then Blocks.count 64 n * 64 - n else 0) := by
  obtain ⟨logic, hengine, hdecides⟩ := h.decides hnames hsuits hfields harith hpool
  rw [hengine, he.count_insert hdecides, holds_zero]

/-- `GT(Load("a"), Const(5))`, as a pool that has built nothing else has it. -/
theorem written_threshold : Written (thresholdCalls (.ofString [97]))
    (.compare .gt (.load (.ofString [97])) (.const 5)) (Jit.thresholdGraph (.ofString [97]) 5) 2
    where
  toBuilt := built_threshold (.ofString [97])
  spelled := ⟨0, 1, rfl, rfl, rfl⟩
  tidy := Session.tidy_of_noReset
    (show BuilderCall.reset ∉ thresholdCalls (.ofString [97]) by simp [thresholdCalls]) _ 2

/-- Three rows of sevens satisfy it. -/
theorem written_counts_sevens :
    (sampleEngine.setExpression [115] Jit.standardHeap (Jit.thresholdGraph (.ofString [97]) 5)
      (some 2) .bitSliced sampleState).1.count (fun _ => Caller.standard [5] (by decide))
        (fun _ => 7) .latest 3 = some 3 := by
  have he : Configured sampleEngine [115] ⟨8, [sampleField]⟩ := configured_new _ _ _ _ _
  have hnames : Names sampleEngine.registry [115]
      (.compare .gt (.load (.ofString [97])) (.const 5)) := by
    intro v hv
    obtain rfl := List.mem_singleton.mp hv
    exact ⟨StringView.whole_ofString (by decide) (by decide), rfl⟩
  have hsuits : (Term.compare .gt (.load (.ofString [97])) (.const 5)).Suits .bitSliced := by
    simp [Term.Suits, Term.kinds, Term.parts, Term.comparisons, Jit.conjunctiveKinds,
      Jit.ComparisonOp.kind]
  rw [written_counts written_threshold he hnames hsuits (by decide) (fun _ => by decide) _ _
    fun _ => pool_threshold _ .bitSliced]
  decide

end Written

/-! ## The logic of the C interface -/

/-- `"Field0"`. -/
def field0 : Name := [70, 105, 101, 108, 100, 48]

/-- `"Field1"`. -/
def field1 : Name := [70, 105, 101, 108, 100, 49]

/-- `"Field2"`. -/
def field2 : Name := [70, 105, 101, 108, 100, 50]

/-- `apex_create_universal_test_logic`, on the pool of its thread. -/
def apexCreateUniversalTestLogic (p : Jit.NodePool) : Option NodeRef × Jit.NodePool :=
  let (f0, p) := p.load (.ofString field0)
  let (f1, p) := p.load (.ofString field1)
  let (sum, p) := p.add f0 f1
  let (f2, p) := p.load (.ofString field2)
  p.gt sum f2

/-- `apex_create_simple_logic`. -/
def apexCreateSimpleLogic (p : Jit.NodePool) : Option NodeRef × Jit.NodePool :=
  let (f0, p) := p.load (.ofString field0)
  let (c10, p) := p.const 10
  p.gt f0 c10

/-- The functions of the C interface that build an expression. -/
inductive LogicFunction where
  | universalTest | simple
  deriving DecidableEq, Repr

namespace LogicFunction

/-- What a function does to the pool, and its result. -/
def create : LogicFunction → Jit.NodePool → Option NodeRef × Jit.NodePool
  | .universalTest => apexCreateUniversalTestLogic
  | .simple => apexCreateSimpleLogic

/-- The term that a function builds. -/
def term : LogicFunction → Term .bitmask
  | .universalTest => .compare .gt
      (.arithmetic .add (.load (.ofString field0)) (.load (.ofString field1)))
      (.load (.ofString field2))
  | .simple => .compare .gt (.load (.ofString field0)) (.const 10)

/-- What they are for: whether a row matches, by its fields. -/
def holds (f : LogicFunction) (row : Name → Word) : Bool :=
  match f with
  | .universalTest => decide (row field2 < row field0 + row field1)
  | .simple => decide (10 < row field0)

/-- The pool of a thread that has called some of them, and nothing else. -/
def pool (fs : List LogicFunction) : Jit.NodePool := fs.foldl (fun p f => (f.create p).2) .fresh

theorem create_eq (f : LogicFunction) (s : Session) :
    f.create s.pool = ((f.term.build s).1, (f.term.build s).2.pool) := by
  cases f <;>
    simp only [create, apexCreateUniversalTestLogic, apexCreateSimpleLogic, term, Term.build,
      Session.call, Session.step, Session.keep, Jit.ComparisonOp.call, Jit.ArithmeticOp.call,
      List.head?_cons, Option.join_some]

/-- The calls of the builder that functions make, on a thread that makes no others. -/
structure Called (fs : List LogicFunction) (calls : List BuilderCall) : Prop where
  run : Session.Run calls
  noReset : .reset ∉ calls
  pool : (Session.run calls).pool = LogicFunction.pool fs
  nextIdx : (Session.run calls).pool.nextIdx =
    min Jit.NodePool.maxNodes (fs.map fun f => f.term.size).sum

namespace Called

variable {fs : List LogicFunction} {calls : List BuilderCall}

theorem nil : Called [] [] := ⟨trivial, List.not_mem_nil, rfl, rfl⟩

/-- **A thread that calls one more function** builds the term of that function. -/
theorem snoc (h : Called fs calls) (f : LogicFunction) :
    ∃ more, Called (fs ++ [f]) (calls ++ more) ∧
      Session.Builds calls f.term (f.create (LogicFunction.pool fs)).1 more := by
  obtain ⟨r, more, hbuild, hb⟩ := Session.buildable f.term calls h.run
  have hcreate := f.create_eq (Session.run calls)
  rw [h.pool, hbuild] at hcreate
  refine ⟨more, ⟨hb.run, ?_, ?_, ?_⟩, hcreate ▸ hb⟩
  · exact fun hmem => (List.mem_append.mp hmem).elim h.noReset hb.noReset
  · rw [LogicFunction.pool, List.foldl_append, ← LogicFunction.pool, List.foldl_cons, hcreate]
    rfl
  · rw [hb.nextIdx, h.nextIdx, List.map_append, List.sum_append, List.map_singleton,
      List.sum_singleton]
    omega

/-- Functions called later keep the results. -/
theorem append (h : Called fs calls) (later : List LogicFunction) :
    ∃ more, Called (fs ++ later) (calls ++ more) ∧ .reset ∉ more ∧
      ∀ o ∈ (Session.run calls).results, o ∈ (Session.run (calls ++ more)).results := by
  induction later using List.reverseRecOn with
  | nil =>
    refine ⟨[], ?_, List.not_mem_nil, fun o ho => ?_⟩
    · rwa [List.append_nil, List.append_nil]
    · rwa [List.append_nil]
  | append_singleton later f ih =>
    obtain ⟨more, hcalled, hno, holder⟩ := ih
    obtain ⟨more', hcalled', hb⟩ := hcalled.snoc f
    rw [List.append_assoc, List.append_assoc] at hcalled'
    refine ⟨more ++ more', hcalled', ?_, fun o ho => ?_⟩
    · exact fun hmem => (List.mem_append.mp hmem).elim hno hb.noReset
    · rw [← List.append_assoc]
      exact hb.older o (holder o ho)

end Called

/-- The result of a function is null exactly when it needs more nodes than are left, and if it is
not, it is what the function spells, also after functions that are called later. -/
theorem create_spec (past later : List LogicFunction) (f : LogicFunction) :
    ((f.create (pool past)).1 = none ↔
        Jit.NodePool.maxNodes < (past.map fun f => f.term.size).sum + f.term.size) ∧
      ∀ root, (f.create (pool past)).1 = some root →
        ∃ calls, Called (past ++ f :: later) calls ∧
          ∀ hordered : (Session.run calls).pool.Ordered,
            Written calls f.term ((Session.run calls).pool.graph hordered) root := by
  obtain ⟨calls, hcalled, -⟩ := Called.nil.append past
  rw [List.nil_append, List.nil_append] at hcalled
  obtain ⟨more, hcalled', hb⟩ := hcalled.snoc f
  refine ⟨?_, fun root hroot => ?_⟩
  · have hsize : 0 < f.term.size := by cases f <;> decide
    rw [hb.result, hcalled.nextIdx]
    split
    · exact iff_of_false (by simp) (by omega)
    · exact iff_of_true rfl (by omega)
  · obtain ⟨more', hcalled'', hno, holder⟩ := hcalled'.append later
    rw [List.append_assoc, List.singleton_append] at hcalled''
    have hmem := hroot ▸ hb.mem
    have hlt := (Session.wellFormed_run hb.run).taken root hmem
    refine ⟨_, hcalled'', fun hordered => ?_⟩
    exact ⟨⟨hcalled''.run, holder _ hmem, ⟨hordered, rfl⟩⟩,
      ((hb.spells root hroot).append hcalled''.run hno hlt).1,
      Session.tidy_of_noReset hcalled''.noReset hordered root⟩

end LogicFunction

/-- Installed by `apex_set_logic` in either mode, on any engine that knows the fields and has
nothing else installed, an expression counts the rows that satisfy a predicate. -/
def CountsRows (g : Graph) (root : NodeRef) (t : Term .bitmask) (P : (Name → Word) → Bool) : Prop :=
  ∀ (e : Engine) (s : Name) (schema : SchemaMetadata), Configured e s schema →
    (∀ v ∈ t.views, (e.registry.getField s v.bytes).isSome) →
    ∀ (heap : ℕ → Word) (mode : ℤ) (st : CompileState) (callers : ℕ → Caller),
      (∀ row, (Jit.compile (execMode mode) heap g (some root) st).2.pool ⊆ (callers row).pool) →
      ∃ e' st', apexSetLogic (some e) (some s) heap g (some root) mode st true = (0, some e', st') ∧
        ∀ order data n, e'.count callers data order n =
          some ((List.range n).countP fun i =>
            P (rowOf e.registry s (datasetRow data schema.rowStride i)))

/-- Over words they are counted up to `2 ^ 64 - 64` rows. -/
def CountsRowsWord (g : Graph) (root : NodeRef) (t : Term .bitmask) (P : (Name → Word) → Bool) :
    Prop :=
  ∀ (e : Engine) (s : Name) (schema : SchemaMetadata), Configured e s schema →
    (∀ v ∈ t.views, (e.registry.getField s v.bytes).isSome) →
    ∀ (heap : ℕ → Word) (mode : ℤ) (st : CompileState) (callers : ℕ → Caller),
      (∀ row, (Jit.compile (execMode mode) heap g (some root) st).2.pool ⊆ (callers row).pool) →
      ∃ e' st', apexSetLogic (some e) (some s) heap g (some root) mode st true = (0, some e', st') ∧
        ∀ order space base rowCount total, e'.CountsWord callers space base order rowCount total ↔
          rowCount.toNat ≤ 2 ^ 64 - 64 ∧ total = BitVec.ofNat 64 ((List.range rowCount.toNat).countP
            fun i => P (rowOf e.registry s (datasetRow (behind space base) schema.rowStride i)))

section Created

variable {calls : List BuilderCall} {g : Graph} {root : NodeRef} {f : LogicFunction}

theorem LogicFunction.whole (f : LogicFunction) : ∀ v ∈ f.term.views, v.Whole := by
  cases f <;> intro v hv <;>
    simp only [term, Term.views, List.append_nil, List.cons_append, List.nil_append,
      List.mem_cons, List.not_mem_nil, or_false] at hv
  · rcases hv with rfl | rfl | rfl <;> exact StringView.whole_ofString (by decide) (by decide)
  · rw [hv]
    exact StringView.whole_ofString (by decide) (by decide)

theorem LogicFunction.suits (f : LogicFunction) (mode : ExecutionMode) : f.term.Suits mode := by
  cases f <;> cases mode <;>
    simp [Term.Suits, term, Term.kinds, Term.parts, Term.comparisons, Jit.conjunctiveKinds,
      Jit.scalarKinds, Jit.ComparisonOp.kind, Jit.ArithmeticOp.kind]

/-- **What the functions build is counted as they mean it**, and the rows are scanned for it. -/
theorem Written.counts (h : Written calls f.term g root) {e : Engine} {s : Name}
    {schema : SchemaMetadata} (he : Configured e s schema)
    (hfields : ∀ v ∈ f.term.views, (e.registry.getField s v.bytes).isSome) {heap : ℕ → Word}
    {mode : ExecutionMode} {st : CompileState} {callers : ℕ → Caller}
    (hpool : ∀ row, (Jit.compile mode heap g (some root) st).2.pool ⊆ (callers row).pool)
    (order : IterationOrder) (data : Data) (n : ℕ) :
    (e.setExpression s heap g (some root) mode st).1.Scans order ∧
      (e.setExpression s heap g (some root) mode st).1.count callers data order n =
        some ((List.range n).countP fun i =>
          f.holds (rowOf e.registry s (datasetRow data schema.rowStride i))) := by
  have hlen : (g.fieldNames root).length ≤ 8 := by
    refine (h.hasTerm.length_fieldNames_le h.tidy).trans
      ((List.dedup_sublist _).length_le.trans ?_)
    cases f <;> decide
  have harith : (g.arithmeticNodes root).length ≤ 8 := by
    refine (h.hasTerm.length_arithmeticNodes_le h.tidy).trans ?_
    cases f <;> decide
  obtain ⟨logic, hengine, hdecides⟩ := h.decides (fun v hv => ⟨f.whole v hv, hfields v hv⟩)
    (f.suits mode) hlen (fun _ => harith) hpool
  have hholds : ∀ bytes, holds e.registry s f.term bytes = f.holds (rowOf e.registry s bytes) :=
    fun bytes => by cases f <;> rfl
  have hzero : holds e.registry s f.term (fun _ => 0) = false := by
    rw [holds_zero]
    cases f <;> decide
  have hcount := he.count_insert hdecides order data n
  rw [if_neg (by rw [hzero]; decide), Nat.add_zero] at hcount
  simp only [hholds] at hcount
  rw [hengine]
  exact ⟨he.scans_insert logic order, hcount⟩

theorem Written.countsRows (h : Written calls f.term g root) : CountsRows g root f.term f.holds := by
  intro e s schema he hfields heap mode st callers hpool
  exact ⟨_, _, rfl, fun order data n => (h.counts he hfields hpool order data n).2⟩

theorem Written.countsRowsWord (h : Written calls f.term g root) :
    CountsRowsWord g root f.term f.holds := by
  intro e s schema he hfields heap mode st callers hpool
  refine ⟨_, _, rfl, fun order space base rowCount total => ?_⟩
  obtain ⟨hscans, hcount⟩ := h.counts he hfields hpool order (behind space base) rowCount.toNat
  exact Engine.countsWord_iff_of_count hscans hcount

end Created

/-- **The logic of the C interface, end to end.**  Whatever the thread has called before, the
result of a function is null exactly when it needs more nodes than are left; if it is not, the
rows that the function is for are counted, also when more is built before it is installed. -/
theorem created_logic_counts (past later : List LogicFunction) (f : LogicFunction) :
    ((f.create (LogicFunction.pool past)).1 = none ↔
        128 < (past.map fun f => f.term.size).sum + f.term.size) ∧
      ∀ root, (f.create (LogicFunction.pool past)).1 = some root →
        ∃ hordered : (LogicFunction.pool (past ++ f :: later)).Ordered,
          CountsRows ((LogicFunction.pool (past ++ f :: later)).graph hordered) root f.term
            f.holds := by
  obtain ⟨hnull, hroot⟩ := LogicFunction.create_spec past later f
  refine ⟨hnull, fun root hr => ?_⟩
  obtain ⟨calls, hcalled, hwritten⟩ := hroot root hr
  rw [← hcalled.pool]
  have hordered := (Session.wellFormed_run hcalled.run).ordered
  exact ⟨hordered, (hwritten hordered).countsRows⟩

/-- An engine that knows the three fields. -/
def fieldsEngine : Engine :=
  (Engine.new .portable fun _ _ => 0).registerSchema [115]
    [⟨field0, 0, 64, .uint64⟩, ⟨field1, 8, 64, .uint64⟩, ⟨field2, 16, 64, .uint64⟩] 24

/-- Three rows of sevens have a sum greater than seven, whatever is built next. -/
theorem created_logic_counts_sevens : ∃ hordered e' st',
    apexSetLogic (some fieldsEngine) (some [115]) Jit.standardHeap
        ((LogicFunction.pool [.universalTest, .simple]).graph hordered) (some 4) 1 sampleState
        true = (0, some e', st') ∧
      e'.count (fun _ => Caller.standard [] (by decide)) (fun _ => 7) .latest 3 = some 3 := by
  obtain ⟨-, hroot⟩ := created_logic_counts [] [.simple] .universalTest
  obtain ⟨hordered, hcounts⟩ := hroot 4 rfl
  have he : Configured fieldsEngine [115] ⟨24,
      [⟨field0, 0, 64, .uint64⟩, ⟨field1, 8, 64, .uint64⟩, ⟨field2, 16, 64, .uint64⟩]⟩ :=
    configured_new _ _ _ _ _
  have hfields : ∀ v ∈ LogicFunction.universalTest.term.views,
      (fieldsEngine.registry.getField [115] v.bytes).isSome := by decide
  obtain ⟨e', st', hset, hcount⟩ := hcounts _ _ _ he hfields Jit.standardHeap 1 sampleState
    (fun _ => Caller.standard [] (by decide)) fun _ => by
      show (Jit.compile .scalar _ _ _ _).2.pool ⊆ _
      rw [Jit.compile_scalar]
      exact List.nil_subset _
  refine ⟨hordered, e', st', hset, ?_⟩
  rw [hcount]
  decide

/-- **Over words** the rows are counted up to `2 ^ 64 - 64`, and `execute` does not return beyond
them. -/
theorem created_logic_counts_word (past later : List LogicFunction) (f : LogicFunction) :
    ∀ root, (f.create (LogicFunction.pool past)).1 = some root →
      ∃ hordered : (LogicFunction.pool (past ++ f :: later)).Ordered,
        CountsRowsWord ((LogicFunction.pool (past ++ f :: later)).graph hordered) root f.term
          f.holds := by
  intro root hr
  obtain ⟨calls, hcalled, hwritten⟩ := (LogicFunction.create_spec past later f).2 root hr
  rw [← hcalled.pool]
  have hordered := (Session.wellFormed_run hcalled.run).ordered
  exact ⟨hordered, (hwritten hordered).countsRowsWord⟩

end Api
end ApexEngine
