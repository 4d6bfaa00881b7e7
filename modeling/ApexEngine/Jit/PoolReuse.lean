import ApexEngine.Core.Runs
import ApexEngine.Jit.Allocation
import ApexEngine.Jit.BuilderRuns
import ApexEngine.Jit.Copies

/-!
# What a pool has left in its nodes

A reset of the pool sets an index back and clears nothing.  A builder function then writes
what the kind of its node has a use for, over whatever an earlier expression has stored there
(`Node.overwrite`), and in particular it leaves alone the pointers its kind has no operands
for.  The analysis of the compilers does not ask for the kind: it follows all three.

The same calls on a fresh pool take the same nodes and return the same results, and what they
make of a node is what is written over it on the reused one (`Refilled`).  So the two
expressions at a root are the same exactly when the nodes that the fresh one reaches had no
such pointers when the pool was reset (`sameExpression_iff`).  Which pointers a pool has left
is again a matter of the calls: a pointer of a node is the one that was written last, by the
last call that has taken the node for a kind that writes it (`pointer_run`).  Nothing is left
over if there is no such call, as before the first reset (`nothingLeft_of_writers`).

What is left over can only add nodes, so that it can make a compiler refuse an expression and
never accept one (`Refilled.accepts`).
-/

namespace ApexEngine
namespace Jit

open A64 (Word)

/-! ## What shows through -/

namespace Node

theorem pointer_content (x : Node) (p : Pointer) : x.content.pointer p = x.pointer p := by
  cases p <;> rfl

theorem children_content (x : Node) : x.content.children = x.children := rfl

/-- **What shows through**: the node has the content of a clean one exactly when the pointers
that are not written were null. -/
theorem content_overwrite_iff {x y : Node} (hy : y.Clean) :
    (x.overwrite y).content = y.content ↔ ∀ p, y.kind.uses p = false → x.pointer p = none := by
  constructor
  · intro h p hp
    have hpointer := congrArg (fun z : Node => z.pointer p) h
    simpa only [pointer_content, pointer_overwrite, hp, Bool.false_eq_true, if_false, hy p hp]
      using hpointer
  · intro h
    have hpointer : ∀ p, (x.overwrite y).pointer p = y.pointer p := by
      intro p
      rw [pointer_overwrite]
      split
      · rfl
      · next hp =>
        have hp : y.kind.uses p = false := by simpa using hp
        rw [h p hp, hy p hp]
    have hl := hpointer .left
    have hr := hpointer .right
    have hc := hpointer .cond
    simp only [pointer, overwrite] at hl hr hc
    simp only [content, overwrite, hl, hr, hc, mk.injEq, and_true, true_and]
    refine ⟨?_, ?_, ?_⟩ <;> split <;> rfl

end Node

/-! ## Operands -/

namespace Session

variable {s : Session} {c : BuilderCall}

/-- The operands of a call are results of calls since the last reset, or null. -/
def Permits (s : Session) (c : BuilderCall) : Prop := ∀ o ∈ c.operands, o = none ∨ o ∈ s.results

instance (s : Session) (c : BuilderCall) : Decidable (s.Permits c) :=
  inferInstanceAs (Decidable (∀ o ∈ c.operands, o = none ∨ o ∈ s.results))

/-- Pointers lead to nodes of lower index, and results to nodes that were taken. -/
structure InOrder (s : Session) : Prop where
  ordered : s.pool.Ordered
  taken : ∀ n, some n ∈ s.results → n < s.pool.nextIdx

theorem inOrder_start : start.InOrder :=
  ⟨NodePool.ordered_fresh, fun n hn => absurd hn (by simp [start])⟩

/-- **One call keeps the order**, whatever is left in the nodes and whether or not operands are
null. -/
theorem InOrder.step (h : s.InOrder) (hc : s.Permits c) : (s.step c).InOrder := by
  cases hnode : c.node with
  | none =>
    rw [step_of_node_none hnode]
    exact ⟨NodePool.ordered_reset h.ordered, fun n hn => absurd hn (by simp)⟩
  | some y =>
    rw [step_of_node hnode]
    have htaken : ∀ n, some n ∈ c.operands → n < s.pool.nextIdx := fun n hn =>
      h.taken n ((hc _ hn).resolve_left (by simp))
    exact ⟨ordered_of_writes h.ordered htaken (writes_node hnode), taken_build h.taken _⟩

end Session

/-! ## A thread -/

/-- A thread that builds and compiles: its pool, with the results of the calls since the last
reset, and what its compilations have left behind. -/
structure Thread where
  session : Session
  inOrder : session.InOrder
  compiled : CompileState

/-- What a thread calls. -/
inductive ThreadCall where
  | build (c : BuilderCall)
  | compile (mode : ExecutionMode) (exprRoot : Option NodeRef)

/-- A call of `NodePool::reset`. -/
def ThreadCall.isReset : ThreadCall → Bool
  | .build .reset => true
  | _ => false

theorem ThreadCall.eq_of_isReset {call : ThreadCall} (h : call.isReset = true) :
    call = .build .reset := by
  cases call with
  | compile mode exprRoot => exact absurd h Bool.false_ne_true
  | build c =>
    cases c with
    | reset => rfl
    | _ => exact absurd h Bool.false_ne_true

namespace Thread

/-- The nodes of the pool. -/
def graph (t : Thread) : Graph := t.session.pool.graph t.inOrder.ordered

/-- What a call does.  A compilation writes the metadata of the nodes and nothing else in
them.  A builder function with operands that are neither null nor results is not called. -/
def step (heap : ℕ → Word) (t : Thread) : ThreadCall → Thread
  | .build c =>
      if h : t.session.Permits c then ⟨t.session.step c, t.inOrder.step h, t.compiled⟩ else t
  | .compile mode exprRoot =>
      { t with compiled := (Jit.compile mode heap t.graph exprRoot t.compiled).2 }

/-- A thread that has built nothing. -/
def start (compiled : CompileState) : Thread := ⟨.start, Session.inOrder_start, compiled⟩

/-- The thread after some calls. -/
def run (heap : ℕ → Word) (compiled : CompileState) (calls : List ThreadCall) : Thread :=
  Runs.run (step heap) (start compiled) calls

/-- The calls up to the last reset, with it. -/
def untilReset (calls : List ThreadCall) : List ThreadCall :=
  Runs.untilLast ThreadCall.isReset calls

/-- The calls since the last reset, or all of them. -/
def sinceReset (calls : List ThreadCall) : List ThreadCall :=
  Runs.sinceLast ThreadCall.isReset calls

section Steps

variable {heap : ℕ → Word} {t : Thread}

theorem session_step_build (c : BuilderCall) :
    (t.step heap (.build c)).session = if t.session.Permits c then t.session.step c else t.session := by
  rw [step]
  split <;> rfl

theorem session_step_reset :
    (t.step heap (.build .reset)).session = ⟨t.session.pool.reset, []⟩ := by
  have hpermits : t.session.Permits .reset := fun o ho => absurd ho List.not_mem_nil
  rw [session_step_build, if_pos hpermits]
  rfl

end Steps
end Thread

/-! ## A reused pool beside a fresh one -/

/-- Two threads after the same calls, one on a pool that had the nodes `old` when it was reset,
the other on a fresh one. -/
structure Refilled (old : NodeRef → Node) (reused fresh : Session) : Prop where
  results : reused.results = fresh.results
  nextIdx : reused.pool.nextIdx = fresh.pool.nextIdx
  filled : ∀ n < fresh.pool.nextIdx,
    reused.pool.storage n = (old n).overwrite (fresh.pool.storage n)
  free : ∀ n, fresh.pool.nextIdx ≤ n →
    reused.pool.storage n = old n ∧ fresh.pool.storage n = { kind := .load }
  clean : ∀ n, (fresh.pool.storage n).Clean

namespace Refilled

variable {old : NodeRef → Node} {reused fresh : Session}

/-- At the reset nothing has been taken. -/
theorem start (p : NodePool) : Refilled p.storage ⟨p.reset, []⟩ .start where
  results := rfl
  nextIdx := rfl
  filled n hn := absurd hn (Nat.not_lt_zero n)
  free n _ := ⟨rfl, rfl⟩
  clean n p _ := by cases p <;> rfl

/-- **A builder function does the same on both**: it takes the same node and writes the same
over it, which on the fresh pool is all there is. -/
theorem build (h : Refilled old reused fresh) {c : BuilderCall} {y : Node} (hc : c.node = some y) :
    Refilled old (reused.step c) (fresh.step c) := by
  rw [Session.step_of_node hc, Session.step_of_node hc]
  rcases Nat.lt_or_ge fresh.pool.nextIdx NodePool.maxNodes with hlt | hle
  · obtain ⟨hold, hnew⟩ := h.free fresh.pool.nextIdx le_rfl
    rw [NodePool.build_of_lt hlt, NodePool.build_of_lt (h.nextIdx ▸ hlt), h.nextIdx, hold, hnew,
      c.overwrite_node hc]
    refine ⟨?_, rfl, fun n hn => ?_, fun n hn => ?_, fun n => ?_⟩
    · exact congrArg (some fresh.pool.nextIdx :: ·) h.results
    · by_cases hnext : n = fresh.pool.nextIdx
      · subst hnext
        simp only [Session.keep, Function.update_self]
      · simp only [Session.keep, Function.update_of_ne hnext]
        exact h.filled n (Nat.lt_of_le_of_ne (Nat.lt_succ_iff.mp hn) hnext)
    · have hne : n ≠ fresh.pool.nextIdx := (Nat.lt_of_succ_le hn).ne'
      simp only [Session.keep, Function.update_of_ne hne]
      exact h.free n (Nat.le_of_succ_le hn)
    · simp only [Session.keep]
      by_cases hnext : n = fresh.pool.nextIdx
      · subst hnext
        rw [Function.update_self]
        exact c.clean_node hc
      · rw [Function.update_of_ne hnext]
        exact h.clean n
  · rw [NodePool.build_of_le hle, NodePool.build_of_le (h.nextIdx ▸ hle)]
    exact ⟨congrArg (none :: ·) h.results, h.nextIdx, h.filled, h.free, h.clean⟩

/-- **One call but a reset** keeps the two beside each other. -/
theorem step {heap : ℕ → Word} {t t' : Thread} (h : Refilled old t.session t'.session)
    {call : ThreadCall} (hcall : call.isReset = false) :
    Refilled old (t.step heap call).session (t'.step heap call).session := by
  cases call with
  | compile mode exprRoot => exact h
  | build c =>
    have hpermits : t.session.Permits c ↔ t'.session.Permits c := by
      rw [Session.Permits, Session.Permits, h.results]
    rw [Thread.session_step_build, Thread.session_step_build]
    by_cases hp : t.session.Permits c
    · rw [if_pos hp, if_pos (hpermits.mp hp)]
      cases hc : c.node with
      | none =>
        rw [c.eq_reset_of_node hc] at hcall
        exact absurd hcall (by decide)
      | some y => exact h.build hc
    · rw [if_neg hp, if_neg fun hp' => hp (hpermits.mpr hp')]
      exact h

end Refilled

section Reuse

variable (heap : ℕ → Word) (compiled : CompileState) (calls : List ThreadCall)

/-- The nodes of the pool at the last reset. -/
def Thread.leftover : NodeRef → Node :=
  (Thread.run heap compiled (Thread.untilReset calls)).session.pool.storage

/-- **A run beside the same calls on a fresh pool.** -/
theorem refilled_run : Refilled (Thread.leftover heap compiled calls)
    (Thread.run heap compiled calls).session
    (Thread.run heap compiled (Thread.sinceReset calls)).session := by
  have hstart : Refilled (Thread.leftover heap compiled calls)
      (Thread.run heap compiled (Thread.untilReset calls)).session Session.start := by
    rcases Runs.untilLast_eq ThreadCall.isReset calls with hnil | ⟨past, r, hpast, hr⟩
    · rw [Thread.leftover, Thread.untilReset, hnil]
      exact Refilled.start .fresh
    · obtain rfl := ThreadCall.eq_of_isReset hr
      rw [Thread.leftover, Thread.untilReset, hpast, Thread.run, Runs.run_append]
      show Refilled (Thread.step heap _ (.build .reset)).session.pool.storage
        (Thread.step heap _ (.build .reset)).session _
      rw [Thread.session_step_reset]
      exact Refilled.start _
  have hrun : Thread.run heap compiled calls = Runs.run (Thread.step heap)
      (Thread.run heap compiled (Thread.untilReset calls)) (Thread.sinceReset calls) :=
    Runs.run_sinceLast ThreadCall.isReset _ _ _
  rw [hrun]
  refine List.foldl_rel (r := fun t t' : Thread => Refilled _ t.session t'.session) hstart ?_
  intro call hmem t t' h
  exact h.step (Runs.not_reset_of_mem_sinceLast hmem)

end Reuse

/-! ## The same expression -/

/-- Two graphs have the same expression at a root: the same nodes are reached, and with the
same content. -/
structure SameExpression (g g' : Graph) (root : NodeRef) : Prop where
  reach : ∀ n, g.Reach root n ↔ g'.Reach root n
  content : ∀ n, g'.Reach root n → (g.node n).content = (g'.node n).content

section Same

variable {g g' : Graph} {root : NodeRef}

/-- The content of what one graph reaches is enough, since the pointers are part of it. -/
theorem sameExpression_of_content
    (h : ∀ n, g'.Reach root n → (g.node n).content = (g'.node n).content) :
    SameExpression g g' root := by
  have hchildren : ∀ n, g'.Reach root n → (g.node n).children = (g'.node n).children :=
    fun n hn => by rw [← Node.children_content, h n hn, Node.children_content]
  refine ⟨fun n => ⟨fun hn => ?_, fun hn => ?_⟩, h⟩
  · induction hn with
    | refl => exact .refl
    | @tail m c _ hc ih =>
      have hc' : c ∈ (g'.node m).children := by
        rw [← hchildren m ih]
        exact hc
      exact ih.tail hc'
  · induction hn with
    | refl => exact .refl
    | @tail m c hm hc ih =>
      have hc' : c ∈ (g.node m).children := by
        rw [hchildren m hm]
        exact hc
      exact ih.tail hc'

/-- To a compiler they are the same. -/
theorem SameExpression.mirrors (h : SameExpression g g' root) : Mirrors g' g root id where
  inj _ _ _ _ heq := heq
  content n hn := by
    rw [id, h.content n hn]
    simp [Node.rename]

end Same

/-- Nothing is left over that an expression would show: the nodes it reaches had no pointers,
when they were `old`, that their kinds do not use. -/
def NothingLeft (old : NodeRef → Node) (g : Graph) (root : NodeRef) : Prop :=
  ∀ n, g.Reach root n → ∀ p, (g.kind n).uses p = false → (old n).pointer p = none

instance (old : NodeRef → Node) (g : Graph) (root : NodeRef) : Decidable (NothingLeft old g root) :=
  decidable_of_iff (∀ n ∈ g.listing root, ∀ p ∈ Pointer.all,
      (g.kind n).uses p = false → (old n).pointer p = none)
    ⟨fun h n hn p hp => h n ((g.mem_listing root).mpr hn) p p.mem_all hp,
      fun h n hn p _ hp => h n ((g.mem_listing root).mp hn) p hp⟩

namespace Refilled

variable {old : NodeRef → Node} {t t' : Thread} {root n : NodeRef}

/-- Results are nodes that both have taken. -/
theorem lt_of_mem (h : Refilled old t.session t'.session) (hroot : some root ∈ t.session.results) :
    root < t'.session.pool.nextIdx :=
  t'.inOrder.taken root (h.results ▸ hroot)

/-- So is all that an expression reaches. -/
theorem lt_of_reach (h : Refilled old t.session t'.session)
    (hroot : some root ∈ t.session.results) (hn : t'.graph.Reach root n) :
    n < t'.session.pool.nextIdx := by
  have hle : n ≤ root := t'.graph.rank_le_of_reach hn
  exact hle.trans_lt (h.lt_of_mem hroot)

/-- A node is the fresh one over the old one. -/
theorem node_eq (h : Refilled old t.session t'.session) (hroot : some root ∈ t.session.results)
    (hn : t'.graph.Reach root n) : t.graph.node n = (old n).overwrite (t'.graph.node n) :=
  h.filled n (h.lt_of_reach hroot hn)

/-- **A root on a reused pool has the expression that it has on a fresh one** exactly when
nothing is left over in the nodes of this expression. -/
theorem sameExpression_iff (h : Refilled old t.session t'.session)
    (hroot : some root ∈ t.session.results) :
    SameExpression t.graph t'.graph root ↔ NothingLeft old t'.graph root := by
  have hnode : ∀ n, t'.graph.Reach root n →
      ((t.graph.node n).content = (t'.graph.node n).content ↔
        ∀ p, (t'.graph.kind n).uses p = false → (old n).pointer p = none) := by
    intro n hn
    rw [h.node_eq hroot hn]
    exact Node.content_overwrite_iff (h.clean n)
  constructor
  · intro hsame n hn
    exact (hnode n hn).mp (hsame.content n hn)
  · intro hnothing
    exact sameExpression_of_content fun n hn => (hnode n hn).mpr (hnothing n hn)

/-! ## What is left over adds nodes -/

/-- A node that is reached on the fresh pool is reached on the reused one. -/
theorem reach (h : Refilled old t.session t'.session) (hroot : some root ∈ t.session.results)
    (hn : t'.graph.Reach root n) : t.graph.Reach root n := by
  induction hn with
  | refl => exact .refl
  | @tail m c hm hc ih =>
    obtain ⟨p, hp⟩ := Node.mem_children_iff.mp hc
    have huses : (t'.graph.node m).kind.uses p = true := by
      by_contra hnot
      rw [Bool.not_eq_true] at hnot
      exact absurd ((h.clean m p hnot).symm.trans hp) (by simp)
    refine ih.tail (Node.mem_children_iff.mpr ⟨p, ?_⟩)
    rw [h.node_eq hroot hm, Node.pointer_overwrite, if_pos huses]
    exact hp

theorem kind_eq (h : Refilled old t.session t'.session) (hroot : some root ∈ t.session.results)
    (hn : t'.graph.Reach root n) : t.graph.kind n = t'.graph.kind n := by
  rw [Graph.kind, h.node_eq hroot hn]
  rfl

/-- **A compiler that accepts an expression on a reused pool accepts it on a fresh one.** -/
theorem accepts (h : Refilled old t.session t'.session) (hroot : some root ∈ t.session.results)
    {mode : ExecutionMode} (haccepts : Accepts t.graph mode root) :
    Accepts t'.graph mode root := by
  intro hmode
  obtain ⟨hfields, harith⟩ := haccepts hmode
  have hnames : t'.graph.fieldNames root ⊆ t.graph.fieldNames root := by
    intro x hx
    obtain ⟨n, hn, hk, hname⟩ := Graph.mem_loadNames_iff.mpr hx
    refine Graph.mem_loadNames_iff.mp ⟨n, h.reach hroot hn, (h.kind_eq hroot hn).trans hk, ?_⟩
    rw [← hname, h.node_eq hroot hn]
    exact if_pos hk
  have hnodes : t'.graph.arithmeticNodes root ⊆ t.graph.arithmeticNodes root := by
    intro n hn
    obtain ⟨hmem, hk⟩ := (t'.graph.mem_arithmeticNodes root).mp hn
    have hreach := (t'.graph.mem_listing root).mp hmem
    refine (t.graph.mem_arithmeticNodes root).mpr
      ⟨(t.graph.mem_listing root).mpr (h.reach hroot hreach), ?_⟩
    rw [h.kind_eq hroot hreach]
    exact hk
  have hnameslen := ((Graph.nodup_fieldNames t'.graph root).subperm hnames).length_le
  have hnodeslen := ((t'.graph.nodup_arithmeticNodes root).subperm hnodes).length_le
  exact ⟨hnameslen.trans hfields, hnodeslen.trans harith⟩

end Refilled

/-! ## What calls leave over -/

namespace Thread

/-- The node that a call takes, with what it makes of it. -/
def takes (t : Thread) : ThreadCall → Option (NodeRef × Node)
  | .build c =>
      if t.session.Permits c ∧ t.session.pool.nextIdx < NodePool.maxNodes then
        c.node.map fun y => (t.session.pool.nextIdx, y)
      else none
  | .compile _ _ => none

variable (heap : ℕ → Word) (compiled : CompileState)

/-- The nodes that calls take for kinds that use a pointer, with what they make of them. -/
def writers (calls : List ThreadCall) (p : Pointer) : List (NodeRef × Node) :=
  (Runs.emitted (step heap) takes (start compiled) calls).filter fun e => e.2.kind.uses p

variable {heap compiled}

theorem writers_snoc (calls : List ThreadCall) (call : ThreadCall) (p : Pointer) :
    writers heap compiled (calls ++ [call]) p = writers heap compiled calls p ++
      ((run heap compiled calls).takes call).toList.filter fun e => e.2.kind.uses p := by
  rw [writers, Runs.emitted_snoc, List.filter_append]
  rfl

section Steps

variable {t : Thread} {call : ThreadCall}

/-- A call that takes a node writes over it. -/
theorem storage_step_of_takes {m : NodeRef} {y : Node} (h : t.takes call = some (m, y)) :
    (t.step heap call).session.pool.storage =
      Function.update t.session.pool.storage m ((t.session.pool.storage m).overwrite y) := by
  cases call with
  | compile mode exprRoot => exact absurd h (by simp [takes])
  | build c =>
    rw [takes] at h
    split at h
    · next htaken =>
      obtain ⟨z, hnode, hz⟩ := Option.map_eq_some_iff.mp h
      obtain ⟨rfl, rfl⟩ := Prod.mk.inj hz
      rw [session_step_build, if_pos htaken.1, Session.step_of_node hnode,
        NodePool.build_of_lt htaken.2]
      rfl
    · exact absurd h (by simp)

/-- The other calls leave the nodes as they are. -/
theorem storage_step_of_takes_none (h : t.takes call = none) :
    (t.step heap call).session.pool.storage = t.session.pool.storage := by
  cases call with
  | compile mode exprRoot => rfl
  | build c =>
    rw [session_step_build]
    by_cases hpermits : t.session.Permits c
    · rw [if_pos hpermits]
      cases hnode : c.node with
      | none =>
        rw [Session.step_of_node_none hnode]
        rfl
      | some y =>
        have hle : NodePool.maxNodes ≤ t.session.pool.nextIdx := by
          by_contra hlt
          rw [takes, if_pos ⟨hpermits, Nat.not_le.mp hlt⟩, hnode] at h
          exact absurd h (by simp)
        rw [Session.step_of_node hnode, NodePool.build_of_le hle]
        rfl
    · rw [if_neg hpermits]

end Steps

/-- **A pointer is the one that was written last**, over all resets: by the last call that has
taken the node for a kind that uses it.  Before the first such call it is null. -/
theorem pointer_run (calls : List ThreadCall) (n : NodeRef) (p : Pointer) :
    ((run heap compiled calls).session.pool.storage n).pointer p =
      (Runs.lastFor (writers heap compiled calls p) n).bind fun y => y.pointer p := by
  induction calls using List.reverseRecOn with
  | nil => cases p <;> rfl
  | append_singleton calls call ih =>
    have hrun : run heap compiled (calls ++ [call]) = (run heap compiled calls).step heap call :=
      Runs.run_append _ calls [call]
    rw [hrun, writers_snoc]
    cases htakes : (run heap compiled calls).takes call with
    | none =>
      rw [storage_step_of_takes_none htakes, ih, Option.toList_none, List.filter_nil,
        List.append_nil]
    | some e =>
      obtain ⟨m, y⟩ := e
      rw [storage_step_of_takes htakes, Option.toList_some]
      by_cases huses : y.kind.uses p = true
      · simp only [List.filter_cons, List.filter_nil, huses, if_true, Runs.lastFor_snoc]
        by_cases hm : m = n
        · subst hm
          rw [Function.update_self, Node.pointer_overwrite, if_pos huses, if_pos rfl,
            Option.bind_some]
        · rw [Function.update_of_ne (Ne.symm hm), if_neg hm, ih]
      · simp only [List.filter_cons, List.filter_nil, huses, Bool.false_eq_true, if_false,
          List.append_nil, ← ih]
        by_cases hm : m = n
        · subst hm
          rw [Function.update_self, Node.pointer_overwrite, if_neg huses]
        · rw [Function.update_of_ne (Ne.symm hm)]

/-- What is left over, by the calls before the last reset. -/
theorem nothingLeft_iff (calls : List ThreadCall) (g : Graph) (root : NodeRef) :
    NothingLeft (leftover heap compiled calls) g root ↔
      ∀ n, g.Reach root n → ∀ p, (g.kind n).uses p = false →
        ((Runs.lastFor (writers heap compiled (untilReset calls) p) n).bind fun y => y.pointer p) =
          none := by
  refine forall₂_congr fun n _ => forall₂_congr fun p _ => ?_
  rw [leftover, pointer_run]

/-- Nothing is left over when no earlier call has taken the nodes for kinds with other operands
than they have now. -/
theorem nothingLeft_of_writers (calls : List ThreadCall) (g : Graph) (root : NodeRef)
    (h : ∀ p, ∀ e ∈ writers heap compiled (untilReset calls) p, g.Reach root e.1 →
      (g.kind e.1).uses p = true) : NothingLeft (leftover heap compiled calls) g root := by
  refine (nothingLeft_iff calls g root).mpr fun n hn p hp => ?_
  cases hlast : Runs.lastFor (writers heap compiled (untilReset calls) p) n with
  | none => rfl
  | some y =>
    have huses := h p (n, y) (Runs.mem_of_lastFor hlast) hn
    exact absurd (hp.symm.trans huses) Bool.false_ne_true

/-- So it is before the first reset. -/
theorem nothingLeft_of_noReset {calls : List ThreadCall}
    (h : ∀ call ∈ calls, call.isReset = false) (g : Graph) (root : NodeRef) :
    NothingLeft (leftover heap compiled calls) g root := by
  have hnil : untilReset calls = [] :=
    List.rdropWhile_eq_nil_iff.mpr fun call hcall => by rw [h call hcall, Bool.not_false]
  refine nothingLeft_of_writers calls g root fun p e he => ?_
  rw [hnil] at he
  exact absurd he List.not_mem_nil

end Thread
end Jit
end ApexEngine
