import ApexEngine.Core.Runs
import ApexEngine.Jit.Builder
import ApexEngine.Jit.Semantics

/-!
# Runs of the builder

A thread calls builder functions and resets its pool, in any order.  What it passes as
operands are results of calls since the last reset (`Session.Allowed`); a result may be
null, when the pool was used up.  All builder functions do the same: what their kind uses of a
node they write over what is there (`Session.step_of_node`).

Two things hold after every such run (`Session.wellFormed_run`).  Every pointer in the pool
leads to a node of lower index.  This includes the pointers that a reset has left behind:
they were in order when they were written, and a node is only written once more when it is
taken again.  And every node that was returned has the operands its kind asks for.  A null
operand comes from a call that found no node, and then the next calls find none either: the
pool does not become free again before a reset, and a reset ends the life of all results.
-/

namespace ApexEngine
namespace Jit

open A64 (Word)

/-! ## Calls -/

/-- A call of a builder function, or of `NodePool::reset`. -/
inductive BuilderCall where
  | load (fieldName : StringView)
  | const (value : Word)
  | add (a b : Option NodeRef)
  | sub (a b : Option NodeRef)
  | gt (a b : Option NodeRef)
  | lt (a b : Option NodeRef)
  | eq (a b : Option NodeRef)
  | and (a b : Option NodeRef)
  | or (a b : Option NodeRef)
  | not (a : Option NodeRef)
  | select (cond a b : Option NodeRef)
  | lsl (a : Option NodeRef) (shift : ℤ)
  | lsr (a : Option NodeRef) (shift : ℤ)
  | reset

namespace BuilderCall

/-- The nodes passed to a call. -/
def operands : BuilderCall → List (Option NodeRef)
  | .load _ | .const _ | .reset => []
  | .add a b | .sub a b | .gt a b | .lt a b | .eq a b | .and a b | .or a b => [a, b]
  | .not a | .lsl a _ | .lsr a _ => [a]
  | .select cond a b => [cond, a, b]

end BuilderCall

/-! ## What is written into a node -/

/-- The child pointers of a node. -/
inductive Pointer where
  | left | right | cond
  deriving DecidableEq, Repr

def Pointer.all : List Pointer := [.left, .right, .cond]

theorem Pointer.mem_all (p : Pointer) : p ∈ all := by cases p <;> decide

namespace Node

/-- A child pointer. -/
def pointer (x : Node) : Pointer → Option NodeRef
  | .left => x.left
  | .right => x.right
  | .cond => x.cond

theorem mem_children_iff {x : Node} {c : NodeRef} :
    c ∈ x.children ↔ ∃ p, x.pointer p = some c := by
  rw [mem_children]
  constructor
  · rintro (h | h | h)
    · exact ⟨.left, h⟩
    · exact ⟨.right, h⟩
    · exact ⟨.cond, h⟩
  · rintro ⟨p, h⟩
    cases p with
    | left => exact Or.inl h
    | right => exact Or.inr (Or.inl h)
    | cond => exact Or.inr (Or.inr h)

end Node

/-- The pointers for which a kind has operands.  These are the ones its builder function
writes. -/
def NodeKind.uses (k : NodeKind) : Pointer → Bool
  | .left => k.leftKind.isSome
  | .right => k.rightKind.isSome
  | .cond => k.condKind.isSome

namespace Node

/-- A node when its pool makes `y` of it: what the kind of `y` uses is from `y`, the rest is
what was there. -/
def overwrite (x y : Node) : Node where
  kind := y.kind
  fieldName := if y.kind = .load then y.fieldName else x.fieldName
  constValue := if y.kind = .const then y.constValue else x.constValue
  shiftAmount := if y.kind = .lsl ∨ y.kind = .lsr then y.shiftAmount else x.shiftAmount
  left := if y.kind.uses .left then y.left else x.left
  right := if y.kind.uses .right then y.right else x.right
  cond := if y.kind.uses .cond then y.cond else x.cond

theorem pointer_overwrite (x y : Node) (p : Pointer) :
    (x.overwrite y).pointer p = if y.kind.uses p then y.pointer p else x.pointer p := by
  cases p <;> rfl

/-- A node that points nowhere but to the operands of its kind. -/
def Clean (y : Node) : Prop := ∀ p, y.kind.uses p = false → y.pointer p = none

end Node

/-- What a builder function makes of a node of a fresh pool.  A reset makes nothing. -/
def BuilderCall.node : BuilderCall → Option Node
  | .load fieldName => some { kind := .load, fieldName := storedName fieldName }
  | .const value => some { kind := .const, constValue := value }
  | .add a b => some { kind := .add, left := a, right := b }
  | .sub a b => some { kind := .sub, left := a, right := b }
  | .gt a b => some { kind := .gt, left := a, right := b }
  | .lt a b => some { kind := .gt, left := b, right := a }
  | .eq a b => some { kind := .eq, left := a, right := b }
  | .and a b => some { kind := .and, left := a, right := b }
  | .or a b => some { kind := .or, left := a, right := b }
  | .not a => some { kind := .not, left := a }
  | .select cond a b => some { kind := .select, cond := cond, left := a, right := b }
  | .lsl a shift => some { kind := .lsl, left := a, shiftAmount := shift }
  | .lsr a shift => some { kind := .lsr, left := a, shiftAmount := shift }
  | .reset => none

namespace BuilderCall

variable {c : BuilderCall} {y : Node}

theorem eq_reset_of_node (h : c.node = none) : c = .reset := by
  cases c with
  | reset => rfl
  | _ => exact absurd h (by simp [node])

/-- A node of a fresh pool becomes what is made. -/
theorem overwrite_node (h : c.node = some y) : ({ kind := .load } : Node).overwrite y = y := by
  cases c with
  | reset => exact absurd h (by simp [node])
  | _ =>
    obtain rfl := Option.some.inj h
    rfl

/-- What is made is clean. -/
theorem clean_node (h : c.node = some y) : y.Clean := by
  intro p hp
  cases c with
  | reset => exact absurd h (by simp [node])
  | _ =>
    obtain rfl := Option.some.inj h
    cases p <;> first | rfl | exact absurd hp.symm Bool.false_ne_true

/-- Its pointers are the operands of the call. -/
theorem pointer_mem_operands (h : c.node = some y) {p : Pointer} (hp : y.kind.uses p = true) :
    y.pointer p ∈ c.operands := by
  cases c with
  | reset => exact absurd h (by simp [node])
  | _ =>
    obtain rfl := Option.some.inj h
    cases p <;> first | exact absurd hp Bool.false_ne_true | simp [Node.pointer, operands]

/-- It has no other pointers. -/
theorem mem_operands_of_pointer (h : c.node = some y) {p : Pointer} {n : NodeRef}
    (hp : y.pointer p = some n) : some n ∈ c.operands := by
  rw [← hp]
  refine pointer_mem_operands h ?_
  by_contra huses
  rw [Bool.not_eq_true] at huses
  exact absurd ((clean_node h p huses).symm.trans hp) (by simp)

end BuilderCall

/-! ## Sessions -/

/-- A thread that builds: its pool, and the results of the calls since the last reset. -/
structure Session where
  pool : NodePool
  results : List (Option NodeRef)

namespace Session

/-- A thread that has built nothing. -/
def start : Session := ⟨.fresh, []⟩

/-- Keep the result of a call. -/
def keep (s : Session) (r : Option NodeRef × NodePool) : Session := ⟨r.2, r.1 :: s.results⟩

/-- What a call does. -/
def step (s : Session) : BuilderCall → Session
  | .load fieldName => s.keep (s.pool.load fieldName)
  | .const value => s.keep (s.pool.const value)
  | .add a b => s.keep (s.pool.add a b)
  | .sub a b => s.keep (s.pool.sub a b)
  | .gt a b => s.keep (s.pool.gt a b)
  | .lt a b => s.keep (s.pool.lt a b)
  | .eq a b => s.keep (s.pool.eq a b)
  | .and a b => s.keep (s.pool.and a b)
  | .or a b => s.keep (s.pool.or a b)
  | .not a => s.keep (s.pool.not a)
  | .select cond a b => s.keep (s.pool.select cond a b)
  | .lsl a shift => s.keep (s.pool.lsl a shift)
  | .lsr a shift => s.keep (s.pool.lsr a shift)
  | .reset => ⟨s.pool.reset, []⟩

/-- The operands of a call are results of calls since the last reset. -/
def Allowed (s : Session) (c : BuilderCall) : Prop := ∀ o ∈ c.operands, o ∈ s.results

instance (s : Session) (c : BuilderCall) : Decidable (s.Allowed c) :=
  inferInstanceAs (Decidable (∀ o ∈ c.operands, o ∈ s.results))

/-- The thread after a run. -/
def run (calls : List BuilderCall) : Session := Runs.run step start calls

/-- A run whose calls are all allowed. -/
def Run (calls : List BuilderCall) : Prop := Runs.Along step Allowed start calls

section Steps

variable {s : Session} {c : BuilderCall} {y : Node}

/-- **Every builder function writes its node over what is there.** -/
theorem step_of_node (h : c.node = some y) :
    s.step c = s.keep (s.pool.build fun x => x.overwrite y) := by
  cases c with
  | reset => exact absurd h (by simp [BuilderCall.node])
  | _ =>
    obtain rfl := Option.some.inj h
    rfl

theorem step_of_node_none (h : c.node = none) : s.step c = ⟨s.pool.reset, []⟩ := by
  rw [BuilderCall.eq_reset_of_node h]
  rfl

end Steps
end Session

/-! ## The invariant -/

/-- A node has the operands its kind asks for. -/
structure Node.Complete (n : Node) : Prop where
  left : n.kind.leftKind.isSome → n.left.isSome
  right : n.kind.rightKind.isSome → n.right.isSome
  cond : n.kind.condKind.isSome → n.cond.isSome

theorem Node.complete_iff {n : Node} :
    n.Complete ↔ ∀ p, n.kind.uses p = true → (n.pointer p).isSome := by
  refine ⟨fun h p hp => ?_, fun h => ⟨h .left, h .right, h .cond⟩⟩
  cases p with
  | left => exact h.left hp
  | right => exact h.right hp
  | cond => exact h.cond hp

/-- What holds of a thread that builds. -/
structure Session.WellFormed (s : Session) : Prop where
  ordered : s.pool.Ordered
  /-- Results are nodes that were taken. -/
  taken : ∀ n, some n ∈ s.results → n < s.pool.nextIdx
  /-- A call without a result has found the pool used up, and it still is. -/
  usedUp : none ∈ s.results → NodePool.maxNodes ≤ s.pool.nextIdx
  complete : ∀ n, some n ∈ s.results → (s.pool.storage n).Complete

namespace Session

theorem wellFormed_start : start.WellFormed where
  ordered := NodePool.ordered_fresh
  taken n hn := absurd hn (by simp [start])
  usedUp h := absurd h (by simp [start])
  complete n hn := absurd hn (by simp [start])

/-- What a builder function makes of a node over given operands: new pointers are operands,
the other ones are those that were there, and no operand that is asked for is missing. -/
structure Writes (operands : List (Option NodeRef)) (write : Node → Node) : Prop where
  child : ∀ x, ∀ c ∈ (write x).children, some c ∈ operands ∨ c ∈ x.children
  complete : none ∉ operands → ∀ x, (write x).Complete

variable {s : Session}

/-- Pointers stay in order when the operands are nodes that were taken. -/
theorem ordered_of_writes {p : NodePool} (h : p.Ordered) {operands : List (Option NodeRef)}
    (htaken : ∀ n, some n ∈ operands → n < p.nextIdx) {write : Node → Node}
    (hwrite : Writes operands write) : (p.build write).2.Ordered := by
  refine NodePool.ordered_build h fun c hc => ?_
  rcases hwrite.child _ c hc with hc | hc
  · exact htaken c hc
  · exact h _ c hc

/-- The result of a call is a node that was taken, like those before it. -/
theorem taken_build (htaken : ∀ n, some n ∈ s.results → n < s.pool.nextIdx) (write : Node → Node) :
    ∀ n, some n ∈ (s.keep (s.pool.build write)).results →
      n < (s.keep (s.pool.build write)).pool.nextIdx := by
  intro n hn
  rcases Nat.lt_or_ge s.pool.nextIdx NodePool.maxNodes with hlt | hle
  · rw [NodePool.build_of_lt hlt] at hn ⊢
    rcases List.mem_cons.mp hn with hn | hn
    · rw [Option.some.inj hn]
      exact Nat.lt_succ_self _
    · exact (htaken n hn).trans (Nat.lt_succ_self _)
  · rw [NodePool.build_of_le hle] at hn ⊢
    exact htaken n ((List.mem_cons.mp hn).resolve_left (by simp))

/-- **A call of a builder function keeps the invariant.**  With a node left the operands are
nodes, since none of the results is null; without one nothing is written. -/
theorem WellFormed.build (h : s.WellFormed) {operands : List (Option NodeRef)}
    (hallowed : ∀ o ∈ operands, o ∈ s.results) {write : Node → Node}
    (hwrite : Writes operands write) : (s.keep (s.pool.build write)).WellFormed := by
  have hord := ordered_of_writes h.ordered (fun n hn => h.taken n (hallowed _ hn)) hwrite
  have htaken := taken_build h.taken write
  rcases Nat.lt_or_ge s.pool.nextIdx NodePool.maxNodes with hlt | hle
  · have hnone : none ∉ operands := fun hmem =>
      absurd (h.usedUp (hallowed none hmem)) (Nat.not_le.mpr hlt)
    rw [NodePool.build_of_lt hlt] at hord htaken ⊢
    refine ⟨hord, htaken, fun hmem => ?_, fun n hn => ?_⟩
    · rcases List.mem_cons.mp hmem with hmem | hmem
      · exact absurd hmem (by simp)
      · exact (h.usedUp hmem).trans (Nat.le_succ _)
    · show (Function.update s.pool.storage s.pool.nextIdx _ n).Complete
      rcases List.mem_cons.mp hn with hn | hn
      · rw [Option.some.inj hn, Function.update_self]
        exact hwrite.complete hnone _
      · rw [Function.update_of_ne (Nat.ne_of_lt (h.taken n hn))]
        exact h.complete n hn
  · rw [NodePool.build_of_le hle] at hord htaken ⊢
    refine ⟨hord, htaken, fun _ => hle, fun n hn => ?_⟩
    exact h.complete n ((List.mem_cons.mp hn).resolve_left (by simp))

/-- The nodes that calls make are written so. -/
theorem writes_node {c : BuilderCall} {y : Node} (h : c.node = some y) :
    Writes c.operands fun x => x.overwrite y where
  child x n hn := by
    obtain ⟨p, hp⟩ := Node.mem_children_iff.mp hn
    rw [Node.pointer_overwrite] at hp
    split at hp
    · exact Or.inl (c.mem_operands_of_pointer h hp)
    · exact Or.inr (Node.mem_children_iff.mpr ⟨p, hp⟩)
  complete hnone x := Node.complete_iff.mpr fun p (hp : y.kind.uses p = true) => by
    have hmem := c.pointer_mem_operands h hp
    rw [Node.pointer_overwrite, if_pos hp, Option.isSome_iff_ne_none]
    exact fun hnull => hnone (hnull ▸ hmem)

/-- **One call keeps the invariant.** -/
theorem WellFormed.step (h : s.WellFormed) {c : BuilderCall} (hallowed : s.Allowed c) :
    (s.step c).WellFormed := by
  cases hnode : c.node with
  | none =>
    rw [step_of_node_none hnode]
    exact ⟨NodePool.ordered_reset h.ordered, fun n hn => absurd hn (by simp),
      fun hn => absurd hn (by simp), fun n hn => absurd hn (by simp)⟩
  | some y =>
    rw [step_of_node hnode]
    exact h.build hallowed (writes_node hnode)

/-- **The invariant of all runs.** -/
theorem wellFormed_run {calls : List BuilderCall} (h : Run calls) : (run calls).WellFormed :=
  Runs.run_inv (fun _ _ hs hallowed => hs.step hallowed) wellFormed_start h

/-- No more nodes are taken than a pool has. -/
theorem nextIdx_le (calls : List BuilderCall) : (run calls).pool.nextIdx ≤ NodePool.maxNodes := by
  have hbuild : ∀ (p : NodePool) write, p.nextIdx ≤ NodePool.maxNodes →
      (p.build write).2.nextIdx ≤ NodePool.maxNodes := by
    intro p write hp
    rcases Nat.lt_or_ge p.nextIdx NodePool.maxNodes with hlt | hle
    · rw [NodePool.build_of_lt hlt]
      exact hlt
    · rw [NodePool.build_of_le hle]
      exact hp
  refine Runs.run_inv_of_forall (I := fun s : Session => s.pool.nextIdx ≤ NodePool.maxNodes)
    (fun s c hs => ?_) (Nat.zero_le _) calls
  cases c with
  | reset => exact Nat.zero_le _
  | _ => exact hbuild _ _ hs

/-! ## The names of leaves -/

/-- The node that a call of `Load` takes, with the view it is given. -/
def loads (s : Session) : BuilderCall → Option (NodeRef × StringView)
  | .load fieldName => (s.pool.load fieldName).1.map fun n => (n, fieldName)
  | _ => none

/-- The view that was last given to a node, by a call of `Load`. -/
def viewOf (calls : List BuilderCall) (n : NodeRef) : StringView :=
  (Runs.lastFor (Runs.emitted step loads start calls) n).getD ⟨[], []⟩

/-- The LOAD nodes that were taken since the last reset have what their calls have stored. -/
def Stored (s : Session) (view : NodeRef → StringView) : Prop :=
  ∀ n < s.pool.nextIdx, (s.pool.storage n).kind = .load →
    (s.pool.storage n).fieldName = storedName (view n)

/-- A call of `Load` gives its view to the node it takes. -/
theorem viewOf_snoc_load {calls : List BuilderCall}
    (hlt : (run calls).pool.nextIdx < NodePool.maxNodes) (v : StringView) (n : NodeRef) :
    viewOf (calls ++ [.load v]) n =
      if (run calls).pool.nextIdx = n then v else viewOf calls n := by
  have hloads : loads (run calls) (.load v) = some ((run calls).pool.nextIdx, v) := by
    rw [loads, NodePool.load, NodePool.build_of_lt hlt]
    rfl
  rw [viewOf, Runs.emitted_snoc, ← run, hloads, Option.toList_some, Runs.lastFor_snoc]
  split <;> rfl

/-- The other calls give no view, and neither does one that finds no node. -/
theorem viewOf_snoc {calls : List BuilderCall} {c : BuilderCall} (hc : loads (run calls) c = none)
    (n : NodeRef) : viewOf (calls ++ [c]) n = viewOf calls n := by
  rw [viewOf, Runs.emitted_snoc, ← run, hc, Option.toList_none, List.append_nil]
  rfl

/-- A node that is no LOAD is taken, or none is. -/
theorem Stored.build {s : Session} {view : NodeRef → StringView} (h : s.Stored view)
    {write : Node → Node} (hkind : ∀ x, (write x).kind ≠ .load) :
    (s.keep (s.pool.build write)).Stored view := by
  rcases Nat.lt_or_ge s.pool.nextIdx NodePool.maxNodes with hlt | hle
  · rw [NodePool.build_of_lt hlt]
    intro n hn hload
    by_cases hnew : n = s.pool.nextIdx
    · subst hnew
      refine absurd hload ?_
      simpa [keep] using hkind _
    · simp only [keep, Function.update_of_ne hnew] at hload ⊢
      exact h n (Nat.lt_of_le_of_ne (Nat.lt_succ_iff.mp hn) hnew) hload
  · rw [NodePool.build_of_le hle]
    exact h

/-- **What the leaves of a run have stored.** -/
theorem stored_run (calls : List BuilderCall) : (run calls).Stored (viewOf calls) := by
  induction calls using List.reverseRecOn with
  | nil => exact fun n hn => absurd hn (Nat.not_lt_zero n)
  | append_singleton calls c ih =>
    have hrun : run (calls ++ [c]) = (run calls).step c := Runs.run_append start calls [c]
    rw [hrun]
    cases c with
    | load v =>
      show ((run calls).keep ((run calls).pool.build _)).Stored _
      rcases Nat.lt_or_ge (run calls).pool.nextIdx NodePool.maxNodes with hlt | hle
      · rw [funext (viewOf_snoc_load hlt v), NodePool.build_of_lt hlt]
        intro n hn hload
        simp only [keep] at hload ⊢
        by_cases hnew : (run calls).pool.nextIdx = n
        · rw [if_pos hnew, ← hnew, Function.update_self]
        · simp only [Function.update_of_ne (Ne.symm hnew)] at hload ⊢
          rw [if_neg hnew]
          exact ih n (Nat.lt_of_le_of_ne (Nat.lt_succ_iff.mp hn) (Ne.symm hnew)) hload
      · have hloads : loads (run calls) (.load v) = none := by
          rw [loads, NodePool.load, NodePool.build_of_le hle]
          rfl
        rw [funext (viewOf_snoc hloads), NodePool.build_of_le hle]
        exact ih
    | reset => exact fun n hn => absurd hn (Nat.not_lt_zero n)
    | _ =>
      rw [funext (viewOf_snoc rfl)]
      exact ih.build fun x => by simp

end Session
end Jit
end ApexEngine
