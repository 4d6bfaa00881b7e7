import ApexEngine.Jit.BuilderRuns
import ApexEngine.Jit.Isolation

/-!
# What a client has written

A client nests calls of the builder functions, as in `GT(Add(Load("a"), Load("b")), Const(5))`,
or names their results and uses a result more than once.  What it has written is a `Term`, with
a meaning of its own: `Term.meaning` says what the term is on a row, and knows of no nodes.

The calls come one after another, in the order the compiler of the client has chosen for the
arguments, and other expressions may be built in between.  All of this is a run of the builder.
A node is spelled by calls of the run: by the one whose result it is, and its operands by theirs
(`Term.Spelled`, `Session.callOf`).  A call only writes into the node it takes, so a spelling
stays until a reset (`Session.Spells.append`), and the nodes have in them what the calls have
written (`Session.madeBy_run`).  So **a node means what its calls spell** (`Graph.reading_eq`),
with any sharing and whatever earlier expressions have left in the pool.

When the arguments are evaluated one after the other (`Term.build`), the calls of a term take
the next nodes of the pool as long as there are any.  A call that finds none has the result
null, and so has every later one, so that the result of the term is null exactly when it has
more calls than there are nodes (`Session.nested_calls`).  No call looks at its operands: what
carries the argument is the invariant of the run.
-/

namespace ApexEngine
namespace Jit

open A64 (Word)
open Core (Name)

/-! ## Operators -/

/-- The builder functions that make a value of two values. -/
inductive ArithmeticOp where
  | add | sub
  deriving DecidableEq, Repr

namespace ArithmeticOp

def eval : ArithmeticOp → Word → Word → Word
  | .add, a, b => a + b
  | .sub, a, b => a - b

def kind : ArithmeticOp → NodeKind
  | .add => .add
  | .sub => .sub

def call : ArithmeticOp → Option NodeRef → Option NodeRef → BuilderCall
  | .add => .add
  | .sub => .sub

@[simp] theorem operands_call (op : ArithmeticOp) (a b : Option NodeRef) :
    (op.call a b).operands = [a, b] := by
  cases op <;> rfl

end ArithmeticOp

/-- Those that shift a value. -/
inductive ShiftOp where
  | lsl | lsr
  deriving DecidableEq, Repr

namespace ShiftOp

def eval : ShiftOp → Word → ℤ → Word
  | .lsl, a, shift => a <<< shift.toNat
  | .lsr, a, shift => a >>> shift.toNat

def kind : ShiftOp → NodeKind
  | .lsl => .lsl
  | .lsr => .lsr

def call : ShiftOp → Option NodeRef → ℤ → BuilderCall
  | .lsl => .lsl
  | .lsr => .lsr

@[simp] theorem operands_call (op : ShiftOp) (a : Option NodeRef) (amount : ℤ) :
    (op.call a amount).operands = [a] := by
  cases op <;> rfl

end ShiftOp

/-- Those that compare two values. -/
inductive ComparisonOp where
  | gt | lt | eq
  deriving DecidableEq, Repr

namespace ComparisonOp

def eval : ComparisonOp → Word → Word → Bool
  | .gt, a, b => decide (b < a)
  | .lt, a, b => decide (a < b)
  | .eq, a, b => decide (a = b)

/-- `LT` makes a node for `GT`. -/
def kind : ComparisonOp → NodeKind
  | .gt | .lt => .gt
  | .eq => .eq

def call : ComparisonOp → Option NodeRef → Option NodeRef → BuilderCall
  | .gt => .gt
  | .lt => .lt
  | .eq => .eq

/-- Whether the operands are exchanged. -/
def swaps : ComparisonOp → Bool
  | .lt => true
  | _ => false

@[simp] theorem operands_call (op : ComparisonOp) (a b : Option NodeRef) :
    (op.call a b).operands = [a, b] := by
  cases op <;> rfl

end ComparisonOp

/-- Those that connect two conditions. -/
inductive ConnectiveOp where
  | and | or
  deriving DecidableEq, Repr

namespace ConnectiveOp

def eval : ConnectiveOp → Bool → Bool → Bool
  | .and, a, b => a && b
  | .or, a, b => a || b

def kind : ConnectiveOp → NodeKind
  | .and => .and
  | .or => .or

def call : ConnectiveOp → Option NodeRef → Option NodeRef → BuilderCall
  | .and => .and
  | .or => .or

@[simp] theorem operands_call (op : ConnectiveOp) (a b : Option NodeRef) :
    (op.call a b).operands = [a, b] := by
  cases op <;> rfl

end ConnectiveOp

/-! ## Terms -/

/-- Nested calls of the builder functions, each on results of the kind it asks for. -/
inductive Term : ResultKind → Type where
  | load (fieldName : StringView) : Term .bitplane
  | const (value : Word) : Term .bitplane
  | arithmetic (op : ArithmeticOp) (a b : Term .bitplane) : Term .bitplane
  | shift (op : ShiftOp) (a : Term .bitplane) (amount : ℤ) : Term .bitplane
  | compare (op : ComparisonOp) (a b : Term .bitplane) : Term .bitmask
  | connect (op : ConnectiveOp) (a b : Term .bitmask) : Term .bitmask
  | not (a : Term .bitmask) : Term .bitmask
  | select (cond a b : Term .bitmask) : Term .bitmask

/-- What there is of a kind on one row: a word, or whether a condition holds. -/
abbrev ResultKind.Carrier : ResultKind → Type
  | .bitplane => Word
  | .bitmask => Bool

namespace Term

/-- **What a term means** on a row, given the word of every field that is named. -/
def meaning (field : StringView → Word) : {k : ResultKind} → Term k → k.Carrier
  | _, .load fieldName => field fieldName
  | _, .const value => value
  | _, .arithmetic op a b => op.eval (a.meaning field) (b.meaning field)
  | _, .shift op a amount => op.eval (a.meaning field) amount
  | _, .compare op a b => op.eval (a.meaning field) (b.meaning field)
  | _, .connect op a b => op.eval (a.meaning field) (b.meaning field)
  | _, .not a => !(a.meaning field)
  | _, .select cond a b => if cond.meaning field then a.meaning field else b.meaning field

/-- The views a term names its fields by. -/
def views : {k : ResultKind} → Term k → List StringView
  | _, .load fieldName => [fieldName]
  | _, .const _ => []
  | _, .arithmetic _ a b | _, .compare _ a b | _, .connect _ a b => a.views ++ b.views
  | _, .shift _ a _ | _, .not a => a.views
  | _, .select cond a b => a.views ++ b.views ++ cond.views

/-- Only the names are looked at. -/
theorem meaning_congr {field field' : StringView → Word} {k : ResultKind} (t : Term k)
    (h : ∀ v ∈ t.views, field v = field' v) : t.meaning field = t.meaning field' := by
  induction t with
  | load v => exact h v List.mem_cons_self
  | const value => rfl
  | arithmetic op a b iha ihb | compare op a b iha ihb | connect op a b iha ihb =>
    rw [meaning, meaning, iha fun v hv => h v (List.mem_append_left _ hv),
      ihb fun v hv => h v (List.mem_append_right _ hv)]
  | shift op a amount ih | not a ih => rw [meaning, meaning, ih h]
  | select cond a b ihc iha ihb =>
    have hab : ∀ v ∈ a.views ++ b.views, field v = field' v := fun v hv =>
      h v (List.mem_append_left _ hv)
    rw [meaning, meaning, ihc fun v hv => h v (List.mem_append_right _ hv),
      iha fun v hv => hab v (List.mem_append_left _ hv),
      ihb fun v hv => hab v (List.mem_append_right _ hv)]

/-- **A node is spelled by calls**: it is the result of the outermost one, and the operands of
this call are spelled by theirs. -/
def Spelled (result : NodeRef → BuilderCall → Prop) : {k : ResultKind} → Term k → NodeRef → Prop
  | _, .load fieldName, n => result n (.load fieldName)
  | _, .const value, n => result n (.const value)
  | _, .arithmetic op a b, n => ∃ x y, result n (op.call (some x) (some y)) ∧
      a.Spelled result x ∧ b.Spelled result y
  | _, .shift op a amount, n => ∃ x, result n (op.call (some x) amount) ∧ a.Spelled result x
  | _, .compare op a b, n => ∃ x y, result n (op.call (some x) (some y)) ∧
      a.Spelled result x ∧ b.Spelled result y
  | _, .connect op a b, n => ∃ x y, result n (op.call (some x) (some y)) ∧
      a.Spelled result x ∧ b.Spelled result y
  | _, .not a, n => ∃ x, result n (.not (some x)) ∧ a.Spelled result x
  | _, .select cond a b, n => ∃ z x y, result n (.select (some z) (some x) (some y)) ∧
      cond.Spelled result z ∧ a.Spelled result x ∧ b.Spelled result y

/-- Calls may be replaced by what is known of their results, below a bound that operands stay
below. -/
theorem Spelled.mono {result result' : NodeRef → BuilderCall → Prop} {bound : ℕ}
    (hresult : ∀ n < bound, ∀ c, result n c →
      result' n c ∧ ∀ m, some m ∈ c.operands → m < bound)
    {k : ResultKind} {t : Term k} {n : NodeRef} (hn : n < bound) (h : t.Spelled result n) :
    t.Spelled result' n := by
  induction t generalizing n with
  | load v => exact (hresult n hn _ h).1
  | const value => exact (hresult n hn _ h).1
  | arithmetic op a b iha ihb | compare op a b iha ihb | connect op a b iha ihb =>
    obtain ⟨x, y, hc, hx, hy⟩ := h
    obtain ⟨hc', hlt⟩ := hresult n hn _ hc
    exact ⟨x, y, hc', iha (hlt x (by simp)) hx, ihb (hlt y (by simp)) hy⟩
  | shift op a amount ih =>
    obtain ⟨x, hc, hx⟩ := h
    obtain ⟨hc', hlt⟩ := hresult n hn _ hc
    exact ⟨x, hc', ih (hlt x (by simp)) hx⟩
  | not a ih =>
    obtain ⟨x, hc, hx⟩ := h
    obtain ⟨hc', hlt⟩ := hresult n hn _ hc
    exact ⟨x, hc', ih (hlt x (by simp [BuilderCall.operands])) hx⟩
  | select cond a b ihc iha ihb =>
    obtain ⟨z, x, y, hc, hz, hx, hy⟩ := h
    obtain ⟨hc', hlt⟩ := hresult n hn _ hc
    exact ⟨z, x, y, hc', ihc (hlt z (by simp [BuilderCall.operands])) hz,
      iha (hlt x (by simp [BuilderCall.operands])) hx,
      ihb (hlt y (by simp [BuilderCall.operands])) hy⟩

end Term

/-! ## The calls of a run -/

/-- What is no reset makes a node. -/
theorem BuilderCall.exists_node {c : BuilderCall} (h : c ≠ .reset) : ∃ y, c.node = some y :=
  Option.ne_none_iff_exists'.mp fun hnode => h (eq_reset_of_node hnode)

/-- A node has in it what a call writes. -/
def Node.MadeBy (x : Node) (c : BuilderCall) : Prop := ∃ y, c.node = some y ∧ x.overwrite y = x

namespace Node.MadeBy

variable {x y : Node} {c : BuilderCall}

/-- So has the node that it has been written into. -/
theorem overwrite (h : c.node = some y) (x : Node) : (x.overwrite y).MadeBy c := by
  refine ⟨y, h, ?_⟩
  simp only [Node.overwrite, Node.mk.injEq]
  refine ⟨trivial, ?_, ?_, ?_, ?_, ?_, ?_⟩ <;> split <;> rfl

/-- The operands of the call are among its pointers. -/
theorem mem_children (h : x.MadeBy c) {m : NodeRef} (hm : some m ∈ c.operands) :
    m ∈ x.children := by
  obtain ⟨y, hy, hx⟩ := h
  have hpointer : ∃ p, y.kind.uses p = true ∧ y.pointer p = some m := by
    cases c with
    | load fieldName | const value | reset => exact absurd hm List.not_mem_nil
    | not a | lsl a shift | lsr a shift =>
      obtain rfl := Option.some.inj hy
      exact ⟨.left, rfl, (List.mem_singleton.mp hm).symm⟩
    | lt a b =>
      obtain rfl := Option.some.inj hy
      rcases List.mem_pair.mp hm with rfl | rfl
      · exact ⟨.right, rfl, rfl⟩
      · exact ⟨.left, rfl, rfl⟩
    | select cond a b =>
      obtain rfl := Option.some.inj hy
      rcases List.mem_cons.mp hm with rfl | hm
      · exact ⟨.cond, rfl, rfl⟩
      · rcases List.mem_pair.mp hm with rfl | rfl
        · exact ⟨.left, rfl, rfl⟩
        · exact ⟨.right, rfl, rfl⟩
    | _ =>
      obtain rfl := Option.some.inj hy
      rcases List.mem_pair.mp hm with rfl | rfl
      · exact ⟨.left, rfl, rfl⟩
      · exact ⟨.right, rfl, rfl⟩
  obtain ⟨p, hp, hym⟩ := hpointer
  refine Node.mem_children_iff.mpr ⟨p, ?_⟩
  rw [← hx, Node.pointer_overwrite, if_pos hp, hym]

/-! What is in a node, by the call that has made it. -/

theorem load {v : StringView} (h : x.MadeBy (.load v)) :
    x.kind = .load ∧ x.fieldName = storedName v := by
  obtain ⟨y, hy, hx⟩ := h
  obtain rfl := Option.some.inj hy
  rw [← hx]
  exact ⟨rfl, rfl⟩

theorem const {value : Word} (h : x.MadeBy (.const value)) :
    x.kind = .const ∧ x.constValue = value := by
  obtain ⟨y, hy, hx⟩ := h
  obtain rfl := Option.some.inj hy
  rw [← hx]
  exact ⟨rfl, rfl⟩

theorem arithmetic {op : ArithmeticOp} {a b : Option NodeRef} (h : x.MadeBy (op.call a b)) :
    x.kind = op.kind ∧ x.left = a ∧ x.right = b := by
  obtain ⟨y, hy, hx⟩ := h
  cases op <;> obtain rfl := Option.some.inj hy <;> rw [← hx] <;> exact ⟨rfl, rfl, rfl⟩

theorem shift {op : ShiftOp} {a : Option NodeRef} {amount : ℤ} (h : x.MadeBy (op.call a amount)) :
    x.kind = op.kind ∧ x.left = a ∧ x.shiftAmount = amount := by
  obtain ⟨y, hy, hx⟩ := h
  cases op <;> obtain rfl := Option.some.inj hy <;> rw [← hx] <;> exact ⟨rfl, rfl, rfl⟩

theorem compare {op : ComparisonOp} {a b : Option NodeRef} (h : x.MadeBy (op.call a b)) :
    x.kind = op.kind ∧ x.left = (if op.swaps then b else a) ∧
      x.right = if op.swaps then a else b := by
  obtain ⟨y, hy, hx⟩ := h
  cases op <;> obtain rfl := Option.some.inj hy <;> rw [← hx] <;> exact ⟨rfl, rfl, rfl⟩

theorem connect {op : ConnectiveOp} {a b : Option NodeRef} (h : x.MadeBy (op.call a b)) :
    x.kind = op.kind ∧ x.left = a ∧ x.right = b := by
  obtain ⟨y, hy, hx⟩ := h
  cases op <;> obtain rfl := Option.some.inj hy <;> rw [← hx] <;> exact ⟨rfl, rfl, rfl⟩

theorem not {a : Option NodeRef} (h : x.MadeBy (.not a)) : x.kind = .not ∧ x.left = a := by
  obtain ⟨y, hy, hx⟩ := h
  obtain rfl := Option.some.inj hy
  rw [← hx]
  exact ⟨rfl, rfl⟩

theorem select {cond a b : Option NodeRef} (h : x.MadeBy (.select cond a b)) :
    x.kind = .select ∧ x.cond = cond ∧ x.left = a ∧ x.right = b := by
  obtain ⟨y, hy, hx⟩ := h
  obtain rfl := Option.some.inj hy
  rw [← hx]
  exact ⟨rfl, rfl, rfl, rfl⟩

end Node.MadeBy

namespace Session

/-- The node that a call takes. -/
def takes (s : Session) (c : BuilderCall) : Option (NodeRef × BuilderCall) :=
  if s.pool.nextIdx < NodePool.maxNodes then c.node.map fun _ => (s.pool.nextIdx, c) else none

/-- The call that took a node last.  For a node that was taken since the last reset this is the
call whose result it is. -/
def callOf (calls : List BuilderCall) (n : NodeRef) : Option BuilderCall :=
  Runs.lastFor (Runs.emitted step takes start calls) n

/-- A term is spelled by the calls of a run. -/
def Spells (calls : List BuilderCall) {k : ResultKind} (t : Term k) (n : NodeRef) : Prop :=
  t.Spelled (fun n c => callOf calls n = some c) n

section Calls

variable {calls : List BuilderCall} {c : BuilderCall} {n : NodeRef}

/-- A call that is no reset takes a node when there is one. -/
theorem takes_eq (s : Session) (h : c ≠ .reset) :
    s.takes c = if s.pool.nextIdx < NodePool.maxNodes then some (s.pool.nextIdx, c) else none := by
  obtain ⟨y, hnode⟩ := BuilderCall.exists_node h
  rw [takes, hnode, Option.map_some]

/-- The call that has taken a node, after one more call. -/
theorem callOf_snoc (h : c ≠ .reset) (hlt : n < NodePool.maxNodes) :
    callOf (calls ++ [c]) n = if (run calls).pool.nextIdx = n then some c else callOf calls n := by
  rw [callOf, Runs.emitted_snoc, ← run, takes_eq _ h]
  by_cases hfree : (run calls).pool.nextIdx < NodePool.maxNodes
  · rw [if_pos hfree, Option.toList_some, Runs.lastFor_snoc]
    rfl
  · rw [if_neg hfree, Option.toList_none, List.append_nil,
      if_neg fun heq : (run calls).pool.nextIdx = n => hfree (heq ▸ hlt)]
    rfl

theorem run_snoc (calls : List BuilderCall) (c : BuilderCall) :
    run (calls ++ [c]) = (run calls).step c :=
  Runs.run_append start calls [c]

/-- **What is in the nodes of a run** is what their calls have written. -/
theorem madeBy_run (calls : List BuilderCall) :
    ∀ n < (run calls).pool.nextIdx, ∃ c, callOf calls n = some c ∧
      ((run calls).pool.storage n).MadeBy c := by
  induction calls using List.reverseRecOn with
  | nil => exact fun n hn => absurd hn (Nat.not_lt_zero n)
  | append_singleton calls c ih =>
    intro n hn
    have hlt := hn.trans_le (nextIdx_le _)
    rw [run_snoc] at hn ⊢
    by_cases hc : c = .reset
    · subst hc
      exact absurd hn (Nat.not_lt_zero n)
    · obtain ⟨y, hnode⟩ := BuilderCall.exists_node hc
      rw [step_of_node hnode] at hn ⊢
      rw [callOf_snoc hc hlt]
      rcases Nat.lt_or_ge (run calls).pool.nextIdx NodePool.maxNodes with hfree | hfull
      · rw [NodePool.build_of_lt hfree] at hn ⊢
        simp only [keep] at hn ⊢
        by_cases hnew : (run calls).pool.nextIdx = n
        · subst hnew
          rw [if_pos rfl, Function.update_self]
          exact ⟨c, rfl, Node.MadeBy.overwrite hnode _⟩
        · rw [if_neg hnew, Function.update_of_ne (Ne.symm hnew)]
          exact ih n (Nat.lt_of_le_of_ne (Nat.lt_succ_iff.mp hn) (Ne.symm hnew))
      · rw [NodePool.build_of_le hfull] at hn ⊢
        rw [if_neg (Nat.ne_of_gt (hlt.trans_le hfull))]
        exact ih n hn

end Calls
end Session

/-! ## What a node means -/

namespace Graph

/-- A term is in a graph, at a node. -/
def HasTerm (g : Graph) {k : ResultKind} (t : Term k) (n : NodeRef) : Prop :=
  t.Spelled (fun n c => (g.node n).MadeBy c) n

/-- What a node is on a row: its value, or whether it holds. -/
def reading (g : Graph) (row : Row) (n : NodeRef) : (k : ResultKind) → k.Carrier
  | .bitplane => g.value row n
  | .bitmask => g.truth row n

variable {g : Graph} {row : Row} {n : NodeRef}

/-- **A node means what the term at it means.** -/
theorem reading_eq {k : ResultKind} {t : Term k} (h : g.HasTerm t n) :
    g.reading row n k = t.meaning fun v => row (storedName v) := by
  induction t generalizing n with
  | load v =>
    obtain ⟨hk, hname⟩ := Node.MadeBy.load h
    rw [reading, value_eq, valueStep, kind, hk, hname, Term.meaning]
  | const value =>
    obtain ⟨hk, hvalue⟩ := Node.MadeBy.const h
    rw [reading, value_eq, valueStep, kind, hk, hvalue, Term.meaning]
  | arithmetic op a b iha ihb =>
    obtain ⟨x, y, hc, hx, hy⟩ := h
    obtain ⟨hk, hl, hr⟩ := hc.arithmetic
    rw [reading, value_eq, valueStep, kind, hk, hl, hr, Term.meaning, ← iha hx, ← ihb hy]
    cases op <;> rfl
  | shift op a amount ih =>
    obtain ⟨x, hc, hx⟩ := h
    obtain ⟨hk, hl, hs⟩ := hc.shift
    rw [reading, value_eq, valueStep, kind, hk, hl, hs, Term.meaning, ← ih hx]
    cases op <;> rfl
  | compare op a b iha ihb =>
    obtain ⟨x, y, hc, hx, hy⟩ := h
    obtain ⟨hk, hl, hr⟩ := hc.compare
    rw [reading, truth_eq, truthStep, kind, hk, hl, hr, Term.meaning, ← iha hx, ← ihb hy]
    cases op <;> rfl
  | connect op a b iha ihb =>
    obtain ⟨x, y, hc, hx, hy⟩ := h
    obtain ⟨hk, hl, hr⟩ := hc.connect
    rw [reading, truth_eq, truthStep, kind, hk, hl, hr, Term.meaning, ← iha hx, ← ihb hy]
    cases op <;> rfl
  | not a ih =>
    obtain ⟨x, hc, hx⟩ := h
    obtain ⟨hk, hl⟩ := hc.not
    rw [reading, truth_eq, truthStep, kind, hk, hl, Term.meaning, ← ih hx]
    rfl
  | select cond a b ihc iha ihb =>
    obtain ⟨z, x, y, hc, hz, hx, hy⟩ := h
    obtain ⟨hk, hcond, hl, hr⟩ := hc.select
    rw [reading, truth_eq, truthStep, kind, hk, hcond, hl, hr, Term.meaning, ← ihc hz, ← iha hx,
      ← ihb hy]
    rfl

end Graph

/-- **The graph of a run has the terms that its calls spell.** -/
theorem Session.Spells.hasTerm {calls : List BuilderCall}
    (hordered : (Session.run calls).pool.Ordered) {k : ResultKind} {t : Term k} {n : NodeRef}
    (hn : n < (Session.run calls).pool.nextIdx) (h : Session.Spells calls t n) :
    ((Session.run calls).pool.graph hordered).HasTerm t n := by
  refine Term.Spelled.mono (fun m hm c hc => ?_) hn h
  obtain ⟨c', hc', hmade⟩ := Session.madeBy_run calls m hm
  obtain rfl := Option.some.inj (hc.symm.trans hc')
  exact ⟨hmade, fun x hx => (hordered m x (hmade.mem_children hx)).trans hm⟩

/-! ## Spelling in a run -/

namespace Session

section Spells

variable {calls : List BuilderCall} {c : BuilderCall} {k : ResultKind} {t : Term k} {n : NodeRef}

/-- **Later calls leave a spelling as it is**, until a reset. -/
theorem Spells.snoc (hrun : Run calls) (hn : n < (run calls).pool.nextIdx)
    (h : Spells calls t n) (hc : c ≠ .reset) : Spells (calls ++ [c]) t n := by
  refine Term.Spelled.mono (fun m hm c' hc' => ?_) hn h
  have hlt := hm.trans_le (nextIdx_le calls)
  refine ⟨?_, fun x hx => ?_⟩
  · rw [callOf_snoc hc hlt, if_neg (Nat.ne_of_gt hm)]
    exact hc'
  · obtain ⟨c'', hc'', hmade⟩ := madeBy_run calls m hm
    obtain rfl := Option.some.inj (hc'.symm.trans hc'')
    exact ((wellFormed_run hrun).ordered m x (hmade.mem_children hx)).trans hm

/-- The result of one more call, with the thread after it. -/
def call (s : Session) (c : BuilderCall) : Option NodeRef × Session :=
  ((s.step c).results.head?.join, s.step c)

end Spells
end Session

/-- Nested calls, one argument after the other. -/
def Term.build : {k : ResultKind} → Term k → Session → Option NodeRef × Session
  | _, .load fieldName, s => s.call (.load fieldName)
  | _, .const value, s => s.call (.const value)
  | _, .arithmetic op a b, s =>
      let (x, s) := a.build s
      let (y, s) := b.build s
      s.call (op.call x y)
  | _, .shift op a amount, s =>
      let (x, s) := a.build s
      s.call (op.call x amount)
  | _, .compare op a b, s =>
      let (x, s) := a.build s
      let (y, s) := b.build s
      s.call (op.call x y)
  | _, .connect op a b, s =>
      let (x, s) := a.build s
      let (y, s) := b.build s
      s.call (op.call x y)
  | _, .not a, s =>
      let (x, s) := a.build s
      s.call (.not x)
  | _, .select cond a b, s =>
      let (z, s) := cond.build s
      let (x, s) := a.build s
      let (y, s) := b.build s
      s.call (.select z x y)

/-- The number of its calls. -/
def Term.size : {k : ResultKind} → Term k → ℕ
  | _, .load _ | _, .const _ => 1
  | _, .arithmetic _ a b | _, .compare _ a b | _, .connect _ a b => a.size + b.size + 1
  | _, .shift _ a _ | _, .not a => a.size + 1
  | _, .select cond a b => cond.size + a.size + b.size + 1

namespace Session

variable {calls more : List BuilderCall} {c : BuilderCall} {k j : ResultKind} {t : Term k}
  {a : Term j} {n : NodeRef}

theorem run_snoc_iff : Run (calls ++ [c]) ↔ Run calls ∧ (run calls).Allowed c := by
  rw [Run, Run, Runs.along_append]
  exact and_congr_right fun _ => and_iff_left trivial

/-- One more call adds its result to those that there are. -/
theorem results_snoc (hc : c ≠ .reset) : (run (calls ++ [c])).results =
    (if (run calls).pool.nextIdx < NodePool.maxNodes then some (run calls).pool.nextIdx
      else none) :: (run calls).results := by
  obtain ⟨y, hnode⟩ := BuilderCall.exists_node hc
  rw [run_snoc, step_of_node hnode]
  rcases Nat.lt_or_ge (run calls).pool.nextIdx NodePool.maxNodes with hlt | hle
  · rw [NodePool.build_of_lt hlt, if_pos hlt]
    rfl
  · rw [NodePool.build_of_le hle, if_neg (Nat.not_lt.mpr hle)]
    rfl

/-- That is what it returns. -/
theorem call_eq (hc : c ≠ .reset) : (run calls).call c =
    (if (run calls).pool.nextIdx < NodePool.maxNodes then some (run calls).pool.nextIdx else none,
      run (calls ++ [c])) := by
  rw [call, ← run_snoc, results_snoc hc, List.head?_cons, Option.join_some]

/-- It takes a node, as long as there are any. -/
theorem nextIdx_snoc (hc : c ≠ .reset) : (run (calls ++ [c])).pool.nextIdx =
    min NodePool.maxNodes ((run calls).pool.nextIdx + 1) := by
  obtain ⟨y, hnode⟩ := BuilderCall.exists_node hc
  rw [run_snoc, step_of_node hnode]
  rcases Nat.lt_or_ge (run calls).pool.nextIdx NodePool.maxNodes with hlt | hle
  · rw [NodePool.build_of_lt hlt, min_eq_right hlt]
    rfl
  · rw [NodePool.build_of_le hle, min_eq_left (hle.trans (Nat.le_succ _))]
    exact Nat.le_antisymm (nextIdx_le calls) hle

/-- **A spelling stays until a reset.** -/
theorem Spells.append (hrun : Run (calls ++ more)) (hmore : .reset ∉ more)
    (hn : n < (run calls).pool.nextIdx) (h : Spells calls t n) :
    Spells (calls ++ more) t n ∧ n < (run (calls ++ more)).pool.nextIdx := by
  induction more using List.reverseRecOn with
  | nil =>
    rw [List.append_nil]
    exact ⟨h, hn⟩
  | append_singleton more c ih =>
    rw [← List.append_assoc] at hrun ⊢
    obtain ⟨hrun, -⟩ := run_snoc_iff.mp hrun
    have hc : c ≠ .reset := fun heq => hmore (by simp [heq])
    obtain ⟨hspells, hlt⟩ := ih hrun fun hmem => hmore (List.mem_append_left _ hmem)
    refine ⟨hspells.snoc hrun hlt hc, ?_⟩
    rw [nextIdx_snoc hc]
    exact lt_min (hlt.trans_le (nextIdx_le _)) (hlt.trans (Nat.lt_succ_self _))

/-- What nested calls add to a run: they take a node for every call as long as there are nodes,
their result is the last of them, and it is null when there are too few. -/
structure Builds (calls : List BuilderCall) (t : Term k) (r : Option NodeRef)
    (more : List BuilderCall) : Prop where
  run : Run (calls ++ more)
  noReset : .reset ∉ more
  older : ∀ o ∈ (Session.run calls).results, o ∈ (Session.run (calls ++ more)).results
  mem : r ∈ (Session.run (calls ++ more)).results
  nextIdx : (Session.run (calls ++ more)).pool.nextIdx =
    min NodePool.maxNodes ((Session.run calls).pool.nextIdx + t.size)
  result : r = if (Session.run calls).pool.nextIdx + t.size ≤ NodePool.maxNodes
    then some ((Session.run calls).pool.nextIdx + t.size - 1) else none
  spells : ∀ n, r = some n → Spells (calls ++ more) t n

/-- A term that is built so on every run. -/
def Buildable (t : Term k) : Prop :=
  ∀ calls, Run calls → ∃ r more, t.build (run calls) = (r, run (calls ++ more)) ∧
    Builds calls t r more

/-- An operand: what is written and what it is. -/
abbrev Operand := (k : ResultKind) × Term k × Option NodeRef

/-- The number of calls for some operands. -/
def operandsSize (ops : List Operand) : ℕ := (ops.map fun o => o.2.1.size).sum

/-- Some operands of a call have been built. -/
structure Stage (calls : List BuilderCall) (ops : List Operand) (more : List BuilderCall) :
    Prop where
  run : Run (calls ++ more)
  noReset : .reset ∉ more
  older : ∀ o ∈ (Session.run calls).results, o ∈ (Session.run (calls ++ more)).results
  mem : ∀ o ∈ ops, o.2.2 ∈ (Session.run (calls ++ more)).results
  nextIdx : (Session.run (calls ++ more)).pool.nextIdx =
    min NodePool.maxNodes ((Session.run calls).pool.nextIdx + operandsSize ops)
  spells : (Session.run calls).pool.nextIdx + operandsSize ops ≤ NodePool.maxNodes →
    ∀ o ∈ ops, ∃ n, o.2.2 = some n ∧ Spells (calls ++ more) o.2.1 n

namespace Stage

variable {ops : List Operand}

/-- Before the first operand is built nothing has been called. -/
theorem nil (hrun : Run calls) : Stage calls [] [] := by
  refine ⟨?_, List.not_mem_nil, ?_, fun o ho => absurd ho List.not_mem_nil, ?_,
    fun _ o ho => absurd ho List.not_mem_nil⟩
  · rwa [List.append_nil]
  · rw [List.append_nil]
    exact fun o ho => ho
  · rw [List.append_nil]
    exact (min_eq_right (nextIdx_le calls)).symm

/-- One more operand is built after those that there are, which keep their nodes. -/
theorem snoc (h : Stage calls ops more) (ha : Buildable a) :
    ∃ r more', a.build (Session.run (calls ++ more)) = (r, Session.run (calls ++ (more ++ more'))) ∧
      Stage calls (ops ++ [⟨j, a, r⟩]) (more ++ more') := by
  obtain ⟨r, more', hbuild, hb⟩ := ha _ h.run
  have hassoc := List.append_assoc calls more more'
  have hsize : operandsSize (ops ++ [⟨j, a, r⟩]) = operandsSize ops + a.size := by
    simp [operandsSize]
  refine ⟨r, more', hassoc ▸ hbuild, ?_⟩
  constructor
  · exact hassoc ▸ hb.run
  · exact fun hmem => (List.mem_append.mp hmem).elim h.noReset hb.noReset
  · exact fun o ho => hassoc ▸ hb.older o (h.older o ho)
  · intro o ho
    rw [← hassoc]
    rcases List.mem_append.mp ho with ho | ho
    · exact hb.older _ (h.mem o ho)
    · rw [List.mem_singleton.mp ho]
      exact hb.mem
  · rw [← hassoc, hb.nextIdx, h.nextIdx, hsize]
    omega
  · intro hle o ho
    rw [hsize] at hle
    rw [← hassoc]
    rcases List.mem_append.mp ho with ho | ho
    · obtain ⟨n, hn, hspells⟩ := h.spells (by omega) o ho
      have hlt := (wellFormed_run h.run).taken n (hn ▸ h.mem o ho)
      exact ⟨n, hn, (hspells.append hb.run hb.noReset hlt).1⟩
    · rw [List.mem_singleton.mp ho]
      have hfits : (Session.run (calls ++ more)).pool.nextIdx + a.size ≤ NodePool.maxNodes := by
        rw [h.nextIdx]
        omega
      have hr := hb.result.trans (if_pos hfits)
      exact ⟨_, hr, hb.spells _ hr⟩

/-- **The call itself**, on all of its operands. -/
theorem call (h : Stage calls ops more) (hc : c ≠ .reset)
    (hoperands : ∀ o ∈ c.operands, ∃ p ∈ ops, p.2.2 = o)
    (hsize : t.size = operandsSize ops + 1)
    (hspells : ∀ calls' n, callOf calls' n = some c →
      (∀ o ∈ ops, ∃ m, o.2.2 = some m ∧ Spells calls' o.2.1 m) → Spells calls' t n) :
    ∃ r, (Session.run (calls ++ more)).call c = (r, Session.run (calls ++ (more ++ [c]))) ∧
      Builds calls t r (more ++ [c]) := by
  have hassoc := List.append_assoc calls more [c]
  have hallowed : (Session.run (calls ++ more)).Allowed c := by
    intro o ho
    obtain ⟨p, hp, rfl⟩ := hoperands o ho
    exact h.mem p hp
  refine ⟨_, hassoc ▸ call_eq hc, ?_⟩
  have hrun : Run (calls ++ more ++ [c]) := run_snoc_iff.mpr ⟨h.run, hallowed⟩
  constructor
  · exact hassoc ▸ hrun
  · intro hmem
    rcases List.mem_append.mp hmem with hmem | hmem
    · exact h.noReset hmem
    · exact hc (List.mem_singleton.mp hmem).symm
  · intro o ho
    rw [← hassoc, results_snoc hc]
    exact List.mem_cons_of_mem _ (h.older o ho)
  · rw [← hassoc, results_snoc hc]
    exact List.mem_cons_self
  · rw [← hassoc, nextIdx_snoc hc, h.nextIdx, hsize]
    omega
  · rw [h.nextIdx, hsize]
    split <;> split <;> first | rfl | omega | (congr 1; omega)
  · intro n hn
    by_cases hlt : (Session.run (calls ++ more)).pool.nextIdx < NodePool.maxNodes
    · have hnew := Option.some.inj ((if_pos hlt).symm.trans hn)
      have hfits := h.nextIdx
      rw [← hassoc]
      refine hspells _ n ?_ fun o ho => ?_
      · rw [callOf_snoc hc (hnew ▸ hlt), if_pos hnew]
      · obtain ⟨m, hm, hspelled⟩ := h.spells (by omega) o ho
        have hlt := (wellFormed_run h.run).taken m (hm ▸ h.mem o ho)
        exact ⟨m, hm, hspelled.snoc h.run hlt hc⟩
    · exact absurd ((if_neg hlt).symm.trans hn) (by simp)

end Stage

/-- A leaf can be built. -/
theorem buildable_leaf (hc : c ≠ .reset) (hoperands : c.operands = [])
    (hsize : t.size = 1) (hbuild : ∀ s, t.build s = s.call c)
    (hspells : ∀ calls' n, callOf calls' n = some c → Spells calls' t n) : Buildable t := by
  intro calls hrun
  obtain ⟨r, hr, hb⟩ := (Stage.nil hrun).call hc
    (fun o ho => absurd ho (by rw [hoperands]; exact List.not_mem_nil)) hsize
    fun calls' n h _ => hspells calls' n h
  exact ⟨r, _, by simpa only [hbuild, List.append_nil] using hr, hb⟩

section Operators

variable {i : ResultKind} {b : Term i}

/-- A call on one operand that can be built can be built. -/
theorem buildable_unary {f : Option NodeRef → BuilderCall} (ha : Buildable a)
    (hc : ∀ x, f x ≠ .reset) (hoperands : ∀ x, (f x).operands = [x])
    (hsize : t.size = a.size + 1)
    (hbuild : ∀ s, t.build s = (a.build s).2.call (f (a.build s).1))
    (hspells : ∀ calls' n x, callOf calls' n = some (f (some x)) → Spells calls' a x →
      Spells calls' t n) : Buildable t := by
  intro calls hrun
  obtain ⟨x, m, hx, hs⟩ := (Stage.nil hrun).snoc ha
  obtain ⟨r, hr, hb⟩ := hs.call (t := t) (hc x) (by simp [hoperands])
    (by simp [operandsSize, hsize]) fun calls' n hcall h => by
      obtain ⟨z, rfl, hz⟩ := h ⟨j, a, x⟩ (by simp)
      exact hspells calls' n z hcall hz
  rw [List.append_nil] at hx
  exact ⟨r, _, by rw [hbuild, hx, hr], hb⟩

/-- So can a call on two. -/
theorem buildable_binary {make : Option NodeRef → Option NodeRef → BuilderCall} (ha : Buildable a)
    (hb : Buildable b) (hc : ∀ x y, make x y ≠ .reset)
    (hoperands : ∀ x y, (make x y).operands = [x, y]) (hsize : t.size = a.size + b.size + 1)
    (hbuild : ∀ s, t.build s =
      (b.build (a.build s).2).2.call (make (a.build s).1 (b.build (a.build s).2).1))
    (hspells : ∀ calls' n x y, callOf calls' n = some (make (some x) (some y)) →
      Spells calls' a x → Spells calls' b y → Spells calls' t n) : Buildable t := by
  intro calls hrun
  obtain ⟨x, m, hx, hs⟩ := (Stage.nil hrun).snoc ha
  obtain ⟨y, m', hy, hs⟩ := hs.snoc hb
  obtain ⟨r, hr, hbuilds⟩ := hs.call (t := t) (hc x y) (by simp [hoperands])
    (by simp [operandsSize, hsize]) fun calls' n hcall h => by
      obtain ⟨z, rfl, hz⟩ := h ⟨j, a, x⟩ (by simp)
      obtain ⟨w, rfl, hw⟩ := h ⟨i, b, y⟩ (by simp)
      exact hspells calls' n z w hcall hz hw
  rw [List.append_nil] at hx
  exact ⟨r, _, by rw [hbuild, hx, hy, hr], hbuilds⟩

end Operators

/-- **Nested calls build what they spell**, on every run and for every term. -/
theorem buildable (t : Term k) : Buildable t := by
  induction t with
  | load v => exact buildable_leaf (by simp) rfl rfl (fun _ => rfl) fun _ _ h => h
  | const value => exact buildable_leaf (by simp) rfl rfl (fun _ => rfl) fun _ _ h => h
  | arithmetic op a b iha ihb =>
    exact buildable_binary iha ihb (by cases op <;> simp [ArithmeticOp.call]) op.operands_call rfl
      (fun _ => rfl) fun _ _ x y h hx hy => ⟨x, y, h, hx, hy⟩
  | shift op a amount ih =>
    exact buildable_unary (f := fun x => op.call x amount) ih
      (by cases op <;> simp [ShiftOp.call]) (fun x => op.operands_call x amount) rfl (fun _ => rfl)
      fun _ _ x h hx => ⟨x, h, hx⟩
  | compare op a b iha ihb =>
    exact buildable_binary iha ihb (by cases op <;> simp [ComparisonOp.call]) op.operands_call rfl
      (fun _ => rfl) fun _ _ x y h hx hy => ⟨x, y, h, hx, hy⟩
  | connect op a b iha ihb =>
    exact buildable_binary iha ihb (by cases op <;> simp [ConnectiveOp.call]) op.operands_call rfl
      (fun _ => rfl) fun _ _ x y h hx hy => ⟨x, y, h, hx, hy⟩
  | not a ih =>
    exact buildable_unary ih (by simp) (fun _ => rfl) rfl (fun _ => rfl)
      fun _ _ x h hx => ⟨x, h, hx⟩
  | select cond a b ihc iha ihb =>
    intro calls hrun
    obtain ⟨z, m, hz, hs⟩ := (Stage.nil hrun).snoc ihc
    obtain ⟨x, m', hx, hs⟩ := hs.snoc iha
    obtain ⟨y, m'', hy, hs⟩ := hs.snoc ihb
    obtain ⟨r, hr, hbuilds⟩ := hs.call (c := .select z x y) (t := .select cond a b) (by simp)
      (by simp [BuilderCall.operands]) (by simp [operandsSize, Term.size, Nat.add_assoc])
      fun calls' n hcall h => by
        obtain ⟨w, rfl, hw⟩ := h ⟨_, cond, z⟩ (by simp)
        obtain ⟨u, rfl, hu⟩ := h ⟨_, a, x⟩ (by simp)
        obtain ⟨v, rfl, hv⟩ := h ⟨_, b, y⟩ (by simp)
        exact ⟨w, u, v, hcall, hw, hu, hv⟩
    rw [List.append_nil] at hz
    exact ⟨r, _, by simp only [Term.build, hz, hx, hy, hr], hbuilds⟩

/-- The graph at a node that is spelled, after any calls but a reset. -/
theorem Spells.hasTerm_append (hrun : Run (calls ++ more)) (hmore : .reset ∉ more)
    (hn : n < (Session.run calls).pool.nextIdx) (h : Spells calls t n)
    (hordered : (Session.run (calls ++ more)).pool.Ordered) :
    ((Session.run (calls ++ more)).pool.graph hordered).HasTerm t n := by
  obtain ⟨hspells, hlt⟩ := h.append hrun hmore hn
  exact hspells.hasTerm hordered hlt

/-- **Nested calls mean what they say**, on every run of the builder: the result is null exactly
when the pool has fewer nodes left than there are calls; otherwise it is a node that is on every
row what the term is, whatever is left in the nodes of the pool, and that stays so until a
reset. -/
theorem nested_calls (hrun : Run calls) (t : Term k) :
    ((t.build (Session.run calls)).1 = none ↔
        NodePool.maxNodes < (Session.run calls).pool.nextIdx + t.size) ∧
      ∀ root, (t.build (Session.run calls)).1 = some root →
        ∃ more, (t.build (Session.run calls)).2 = Session.run (calls ++ more) ∧
          Run (calls ++ more) ∧
          ∀ later, Run (calls ++ more ++ later) → .reset ∉ later →
            ∀ hordered : (Session.run (calls ++ more ++ later)).pool.Ordered, ∀ row,
              ((Session.run (calls ++ more ++ later)).pool.graph hordered).reading row root k =
                t.meaning fun v => row (storedName v) := by
  obtain ⟨r, more, hbuild, hb⟩ := buildable t calls hrun
  rw [hbuild]
  refine ⟨?_, fun root hroot => ⟨more, rfl, hb.run, fun later hlater hno hordered row => ?_⟩⟩
  · rw [hb.result]
    split
    · exact iff_of_false (by simp) (by omega)
    · exact iff_of_true rfl (by omega)
  · have hlt := (wellFormed_run hb.run).taken root (hroot ▸ hb.mem)
    exact Graph.reading_eq ((hb.spells root hroot).hasTerm_append hlater hno hlt hordered)

/-- `GT(Load("a"), Const(5))` on a pool that has built nothing. -/
theorem nested_calls_threshold : ∃ calls, Run calls ∧
    ∀ hordered : (Session.run calls).pool.Ordered, ∀ row,
      ((Session.run calls).pool.graph hordered).truth row 2 = decide (5 < row [97]) := by
  obtain ⟨-, hroot⟩ := nested_calls (show Run [] from trivial)
    (.compare .gt (.load (.ofString [97])) (.const 5))
  obtain ⟨more, -, hrun, hmeans⟩ := hroot 2 rfl
  have hmeans := hmeans []
  rw [List.nil_append] at hrun
  rw [List.append_nil, List.nil_append] at hmeans
  exact ⟨more, hrun, hmeans hrun List.not_mem_nil⟩

end Session

end Jit
end ApexEngine
